import ShiftReduce.Grammar

set_option autoImplicit false

/-! # Augmented grammars

The rules of a context-free grammar and the production `S′ -> S` after them. The ids of the
grammar's productions stay what they were, and the new production has the next one.

**`Grammar.left_eq_of_isContextFree`**: every left side of a context-free grammar is one named
nonterminal. -/

namespace ShiftReduce

/-- Context-free rules over named symbols, and a named nonterminal to start from. -/
structure AugmentedGrammar where
  rules : List Production
  start : Symbol
  left_eq : ∀ p ∈ rules, ∃ name, p.left = [.nonterminal name]
  right_named : ∀ p ∈ rules, ∀ s ∈ p.right, s.isSentinel = false
  start_eq : ∃ name, start = .nonterminal name

namespace AugmentedGrammar

/-- The rest of an augmented grammar is proofs. -/
theorem eq_of_rules_eq {g h : AugmentedGrammar} (hrules : g.rules = h.rules)
    (hstart : g.start = h.start) : g = h := by
  cases g
  cases h
  subst hrules hstart
  rfl

/-- The id of the production `S′ -> S`. -/
def augmented (g : AugmentedGrammar) : ProductionId :=
  g.rules.length

def augmentedProduction (g : AugmentedGrammar) : Production :=
  .augmented g.start

def productions (g : AugmentedGrammar) : List Production :=
  g.rules ++ [g.augmentedProduction]

def production? (g : AugmentedGrammar) (id : ProductionId) : Option Production :=
  if id = g.augmented then some g.augmentedProduction else g.rules[id]?

/-- The productions of `s`, each with its id. -/
def productionsOf (g : AugmentedGrammar) (s : Symbol) : List (ProductionId × Production) :=
  match s with
  | .start => [(g.augmented, g.augmentedProduction)]
  | s => Production.alternatives g.rules s

/-- Whether both have the same rules in the same order, and the same start symbol. -/
def sameRules (g h : AugmentedGrammar) : Bool :=
  g.start == h.start && g.rules.length == h.rules.length &&
    (g.rules.zip h.rules).all fun (p, q) => p.sameRule q

theorem production?_eq_getElem? (g : AugmentedGrammar) (id : ProductionId) :
    g.production? id = g.productions[id]? := by
  unfold production? productions augmented
  split
  · simp_all
  · grind

theorem length_productions (g : AugmentedGrammar) : g.productions.length = g.augmented + 1 := by
  simp [productions, augmented]

/-- A production listed for a symbol is a production of the grammar. -/
theorem lt_of_mem_productionsOf {g : AugmentedGrammar} {s : Symbol} {id : ProductionId}
    {p : Production} (h : (id, p) ∈ g.productionsOf s) : id < g.augmented + 1 := by
  unfold productionsOf at h
  split at h
  · simp_all
  · have := (List.getElem?_eq_some_iff.1 (Production.mem_alternatives.1 h).1).1
    exact Nat.lt_succ_of_lt this

theorem nodup_productionsOf (g : AugmentedGrammar) (s : Symbol) :
    ((g.productionsOf s).map Prod.fst).Nodup := by
  unfold productionsOf
  split
  · simp
  · exact Production.nodup_alternatives _ _

theorem lhs?_augmentedProduction (g : AugmentedGrammar) :
    g.augmentedProduction.lhs? = some .start := rfl

theorem lhs?_of_mem_rules {g : AugmentedGrammar} {p : Production} (h : p ∈ g.rules) :
    ∃ name, p.lhs? = some (.nonterminal name) := by
  obtain ⟨name, hleft⟩ := g.left_eq p h
  exact ⟨name, by simp [Production.lhs?, hleft, Symbol.isNonterminal]⟩

/-- A production is `S′ -> S` or a rule. -/
theorem production?_eq_some_iff {g : AugmentedGrammar} {id : ProductionId} {p : Production} :
    g.production? id = some p ↔
      id = g.augmented ∧ p = g.augmentedProduction ∨ g.rules[id]? = some p := by
  unfold production?
  split
  · next h => simp [h, augmented, eq_comm]
  · next h => simp [h]

theorem production?_augmented (g : AugmentedGrammar) :
    g.production? g.augmented = some g.augmentedProduction :=
  production?_eq_some_iff.2 (Or.inl ⟨rfl, rfl⟩)

theorem production?_of_getElem? {g : AugmentedGrammar} {id : ProductionId} {p : Production}
    (h : g.rules[id]? = some p) : g.production? id = some p :=
  production?_eq_some_iff.2 (Or.inr h)

/-- Every production of a symbol is listed for it, the one of `S′` too. -/
theorem mem_productionsOf_iff {g : AugmentedGrammar} {s : Symbol} {id : ProductionId}
    {p : Production} :
    (id, p) ∈ g.productionsOf s ↔ g.production? id = some p ∧ p.lhs? = some s := by
  rw [production?_eq_some_iff]
  by_cases hs : s = .start
  · subst hs
    simp only [productionsOf, List.mem_singleton, Prod.mk.injEq]
    constructor
    · rintro ⟨rfl, rfl⟩
      exact ⟨Or.inl ⟨rfl, rfl⟩, g.lhs?_augmentedProduction⟩
    · rintro ⟨h | h, hlhs⟩
      · exact h
      · obtain ⟨name, hname⟩ := lhs?_of_mem_rules (List.mem_of_getElem? h)
        simp [hname] at hlhs
  · have hlist : g.productionsOf s = Production.alternatives g.rules s := by
      unfold productionsOf
      split
      · exact absurd rfl hs
      · rfl
    rw [hlist, Production.mem_alternatives]
    constructor
    · rintro ⟨h, hlhs⟩
      exact ⟨Or.inr h, hlhs⟩
    · rintro ⟨⟨-, rfl⟩ | h, hlhs⟩
      · rw [g.lhs?_augmentedProduction, Option.some.injEq] at hlhs
        exact absurd hlhs.symm hs
      · exact ⟨h, hlhs⟩

/-- No sentinel stands in a right side, not even `S′`. -/
theorem isSentinel_of_mem_right {g : AugmentedGrammar} {id : ProductionId} {p : Production}
    (h : g.production? id = some p) {s : Symbol} (hs : s ∈ p.right) : s.isSentinel = false := by
  rcases production?_eq_some_iff.1 h with ⟨-, rfl⟩ | h
  · obtain ⟨name, hname⟩ := g.start_eq
    obtain rfl : s = g.start := by simpa [augmentedProduction, Production.augmented] using hs
    rw [hname]
    rfl
  · exact g.right_named p (List.mem_of_getElem? h) s hs

end AugmentedGrammar

namespace Grammar

variable {g : Grammar}

/-- A symbol of the rules that counts as a nonterminal is a named one. -/
theorem eq_nonterminal_of_mem {p : Production} (hp : p ∈ g.productions) {s : Symbol}
    (hs : s ∈ p.symbols) (hn : s.isNonterminal = true) : ∃ name, s = .nonterminal name := by
  rcases g.sound.knows p hp s hs with h | h
  · have := g.sound.isTerminal s h
    cases s <;> simp_all [Symbol.isTerminal, Symbol.isNonterminal]
  · obtain ⟨name, rfl, -⟩ := g.sound.isNonterminal s h
    exact ⟨name, rfl⟩

/-- No symbol of the rules is a sentinel. -/
theorem isSentinel_of_mem {p : Production} (hp : p ∈ g.productions) {s : Symbol}
    (hs : s ∈ p.symbols) : s.isSentinel = false := by
  rcases g.sound.knows p hp s hs with h | h
  · have := g.sound.isTerminal s h
    cases s <;> simp_all [Symbol.isTerminal, Symbol.isSentinel]
  · obtain ⟨name, rfl, -⟩ := g.sound.isNonterminal s h
    rfl

theorem left_eq_of_isContextFree (h : g.IsContextFree) :
    ∀ p ∈ g.productions, ∃ name, p.left = [.nonterminal name] := by
  intro p hp
  obtain ⟨s, hleft, hn⟩ := Production.Class.isContextFree_iff.1
    (Production.Class.isContextFree_of_le_classify (g.le_narrowestClass_iff.1 h p hp))
  obtain ⟨name, rfl⟩ := eq_nonterminal_of_mem hp
    (List.mem_append_left p.right (hleft ▸ List.mem_singleton.2 rfl)) hn
  exact ⟨name, hleft⟩

/-- The augmented grammar of a context-free grammar. -/
def augmented (g : Grammar) (h : g.IsContextFree) : AugmentedGrammar where
  rules := g.productions
  start := g.start
  left_eq := left_eq_of_isContextFree h
  right_named p hp _ hs := isSentinel_of_mem hp (List.mem_append_right p.left hs)
  start_eq := by
    obtain ⟨name, h, -⟩ := g.sound.isNonterminal g.start g.sound.start_mem
    exact ⟨name, h⟩

/-- The augmented grammar, or the class that keeps the grammar from having one. -/
def augment (g : Grammar) : Except GrammarError AugmentedGrammar :=
  if h : g.IsContextFree then .ok (g.augmented h) else .error (.notContextFree g.narrowestClass)

end Grammar

end ShiftReduce
