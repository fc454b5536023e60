import ShiftReduce.Options
import ShiftReduce.Production

set_option autoImplicit false

/-! # Grammars

A grammar has two alphabets that share no name, distinct rules over them, a start symbol and the
options for its tables. `Grammar.ofParts` is the only check: it drops repeated rules and then
reports the first fault.

**`Grammar.Parts.fault?_eq_none_iff`**: no fault is found exactly when the parts are sound. -/

namespace ShiftReduce

/-- What a grammar is made of, before any check. -/
structure Grammar.Parts where
  terminals : SymbolSet
  nonterminals : SymbolSet
  productions : List Production
  start : Symbol
  options : TableOptions := {}

namespace Grammar.Parts

/-! ## Faults -/

def terminalFault? (g : Parts) : Option GrammarError :=
  (g.terminals.toList.find? fun s => !s.isTerminal).map .notATerminal

/-- What keeps `s` from being a nonterminal beside the given terminals. -/
def memberFault? (terminals : SymbolSet) (s : Symbol) : Option GrammarError :=
  match s with
  | .nonterminal name => if .terminal name ∈ terminals then some (.ambiguousName name) else none
  | .terminal name => some (.terminalAsNonterminal name)
  | s => some (.notANonterminal s)

def nonterminalFault? (g : Parts) : Option GrammarError :=
  g.nonterminals.toList.findSome? (memberFault? g.terminals)

def startFault? (g : Parts) : Option GrammarError :=
  if g.start ∈ g.nonterminals then none else some (.startNotInAlphabet g.start)

def Knows (g : Parts) (s : Symbol) : Prop :=
  s ∈ g.terminals ∨ s ∈ g.nonterminals

instance (g : Parts) (s : Symbol) : Decidable (g.Knows s) :=
  inferInstanceAs (Decidable (_ ∨ _))

/-- The first symbol of the rules that is in neither alphabet. -/
def symbolFault? (g : Parts) : Option GrammarError :=
  ((g.productions.flatMap Production.symbols).find? fun s => !g.Knows s).map .unknownSymbol

/-- The first fault: of the terminals, of the nonterminals, of the start symbol, of the rules. -/
def fault? (g : Parts) : Option GrammarError :=
  g.terminalFault? <|> g.nonterminalFault? <|> g.startFault? <|> g.symbolFault?

/-- The alphabets hold what they should and share no name, and everything else is built over
    them. -/
structure Sound (g : Parts) : Prop where
  isTerminal : ∀ s ∈ g.terminals, s.isTerminal = true
  isNonterminal : ∀ s ∈ g.nonterminals, ∃ name, s = .nonterminal name ∧ .terminal name ∉ g.terminals
  start_mem : g.start ∈ g.nonterminals
  knows : ∀ p ∈ g.productions, ∀ s ∈ p.symbols, g.Knows s

theorem memberFault?_eq_none_iff {terminals : SymbolSet} {s : Symbol} :
    memberFault? terminals s = none ↔
      ∃ name, s = .nonterminal name ∧ .terminal name ∉ terminals := by
  cases s <;> simp [memberFault?]

theorem terminalFault?_eq_none_iff {g : Parts} :
    g.terminalFault? = none ↔ ∀ s ∈ g.terminals, s.isTerminal = true := by
  simp [terminalFault?]

theorem nonterminalFault?_eq_none_iff {g : Parts} :
    g.nonterminalFault? = none ↔
      ∀ s ∈ g.nonterminals, ∃ name, s = .nonterminal name ∧ .terminal name ∉ g.terminals := by
  simp only [nonterminalFault?, List.findSome?_eq_none_iff, Std.ExtTreeSet.mem_toList,
    memberFault?_eq_none_iff]

theorem startFault?_eq_none_iff {g : Parts} :
    g.startFault? = none ↔ g.start ∈ g.nonterminals := by
  simp [startFault?]

theorem symbolFault?_eq_none_iff {g : Parts} :
    g.symbolFault? = none ↔ ∀ p ∈ g.productions, ∀ s ∈ p.symbols, g.Knows s := by
  simp only [symbolFault?, Option.map_eq_none_iff, List.find?_eq_none, List.mem_flatMap]
  constructor
  · intro h p hp s hs
    simpa using h s ⟨p, hp, hs⟩
  · rintro h s ⟨p, hp, hs⟩
    simpa using h p hp s hs

theorem fault?_eq_none_iff {g : Parts} : g.fault? = none ↔ g.Sound := by
  simp only [fault?, Option.orElse_eq_orElse, Option.orElse_eq_or, Option.or_eq_none_iff,
    terminalFault?_eq_none_iff, nonterminalFault?_eq_none_iff, startFault?_eq_none_iff,
    symbolFault?_eq_none_iff]
  exact ⟨fun ⟨ht, hn, hs, hk⟩ => ⟨ht, hn, hs, hk⟩, fun h => ⟨h.1, h.2, h.3, h.4⟩⟩

end Grammar.Parts

/-- Sound parts with distinct rules. -/
structure Grammar extends Grammar.Parts where
  sound : toParts.Sound
  distinct : productions.Pairwise fun p q => p.sameRule q = false

namespace Grammar

/-- The grammar of the given parts, where a rule that came before is left out. -/
def ofParts (parts : Parts) : Except GrammarError Grammar :=
  let kept := { parts with productions := Production.distinct parts.productions }
  match h : kept.fault? with
  | none => .ok ⟨kept, Parts.fault?_eq_none_iff.1 h, Production.pairwise_distinct parts.productions⟩
  | some fault => .error fault

/-- A grammar can be built again from its parts. -/
theorem ofParts_toParts (g : Grammar) : ofParts g.toParts = .ok g := by
  have hkept : { g.toParts with productions := Production.distinct g.productions } = g.toParts := by
    rw [Production.distinct_eq_self g.distinct]
  have hsame {parts : Parts} (hsound : parts.Sound) (hdistinct) (he : parts = g.toParts) :
      (⟨parts, hsound, hdistinct⟩ : Grammar) = g := by
    subst he
    rfl
  unfold ofParts
  dsimp only
  split
  · next hnone => exact congrArg Except.ok (hsame _ _ hkept)
  · next fault hfault =>
    rw [hkept, Parts.fault?_eq_none_iff.2 g.sound] at hfault
    nomatch hfault

/-! ## Class -/

/-- The narrowest class that all rules belong to. -/
def narrowestClass (g : Grammar) : Production.Class :=
  g.productions.foldr (fun p c => min p.narrowestClass c) .regular

theorem le_narrowestClass_iff (g : Grammar) {c : Production.Class} :
    c ≤ g.narrowestClass ↔ ∀ p ∈ g.productions, c ≤ p.narrowestClass := by
  unfold narrowestClass
  generalize g.productions = ps
  induction ps with
  | nil => simp [Production.Class.le_regular]
  | cons p rest ih => simp [Production.Class.le_min_iff, ih]

def IsContextFree (g : Grammar) : Prop :=
  .contextFree ≤ g.narrowestClass

instance (g : Grammar) : Decidable g.IsContextFree :=
  inferInstanceAs (Decidable (_ ≤ _))

/-! ## Rules -/

def production? (g : Grammar) (id : ProductionId) : Option Production :=
  g.productions[id]?

/-- The productions of `s`, each with its name. -/
def productionsOf (g : Grammar) (s : Symbol) : List (ProductionId × Production) :=
  Production.alternatives g.productions s

end Grammar

end ShiftReduce
