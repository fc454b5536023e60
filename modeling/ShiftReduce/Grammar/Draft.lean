import ShiftReduce.Grammar

set_option autoImplicit false

/-! # Drafts of grammars

A draft is a grammar in the making. Its alphabets grow with the symbols of the rules, and the first
rule that is refused is remembered until the draft is built. -/

namespace ShiftReduce

structure Draft where
  terminals : SymbolSet := ∅
  nonterminals : SymbolSet := ∅
  productions : List Production := []
  start? : Option Symbol := none
  options : TableOptions := {}
  error? : Option GrammarError := none

namespace Draft

inductive Step where
  | terminal (name : String)
  | nonterminal (name : String)
  | start (name : String)
  | options (options : TableOptions)
  /-- A context-free rule. -/
  | rule (lhs : String) (right : Word)
  /-- A rule of the given class. -/
  | ruleOf (tag : Production.Class) (left right : Word)
  | production (p : Production)

/-! ## Steps -/

/-- Declares a named symbol. The sentinels belong to no alphabet. -/
def declare (d : Draft) (s : Symbol) : Draft :=
  match s with
  | .terminal _ => { d with terminals := d.terminals.insert s }
  | .nonterminal _ => { d with nonterminals := d.nonterminals.insert s }
  | .start | .eof | .dot => d

def addProduction (d : Draft) (p : Production) : Draft :=
  { p.symbols.foldl declare d with productions := d.productions ++ [p] }

/-- Adds what could be made, or remembers the error when it is the first one. -/
def addChecked (d : Draft) : Except GrammarError Production → Draft
  | .ok p => d.addProduction p
  | .error e => { d with error? := d.error? <|> some e }

def apply (d : Draft) : Step → Draft
  | .terminal name => d.declare (.terminal name)
  | .nonterminal name => d.declare (.nonterminal name)
  | .start name => { d.declare (.nonterminal name) with start? := some (.nonterminal name) }
  | .options options => { d with options }
  | .rule lhs right => d.addChecked (Production.contextFree (.nonterminal lhs) right)
  | .ruleOf tag left right => d.addChecked (Production.ofClass tag left right)
  | .production p => d.addProduction p

/-- The draft after the given steps. -/
def ofSteps (steps : List Step) : Draft :=
  steps.foldl apply {}

/-! ## Building -/

/-- The start symbol: the one given last, or else the left side of the first rule that has one
    nonterminal there. -/
def chosenStart? (d : Draft) : Option Symbol :=
  d.start? <|> d.productions.findSome? Production.lhs?

def build (d : Draft) : Except GrammarError Grammar :=
  match d.error?, d.chosenStart? with
  | some e, _ => .error e
  | none, none => .error .missingStart
  | none, some s =>
    Grammar.ofParts ⟨d.terminals, d.nonterminals, d.productions, s, d.options⟩

end Draft

end ShiftReduce
