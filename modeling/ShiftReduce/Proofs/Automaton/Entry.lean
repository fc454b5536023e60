import ShiftReduce.Proofs.Automaton.States

set_option autoImplicit false

/-! # How states are entered

Goto moves dots over one symbol and then adds items with their dots in front. So a state that an
edge leads to shows by its own items which symbol the edge bears and what the state before has, and
all edges into it agree, however many states they come from and whichever of them was found first.
The state in which everything begins has all its dots in front, and no edge leads there.

**`Automaton.exists_isEnteredOver`**: every other state is entered over one symbol. -/

namespace ShiftReduce

variable {g : AugmentedGrammar} {items before : ItemSet} {x : Symbol}

namespace Automaton

variable {a : Automaton} {id source target : StateId}

/-- Where everything begins nothing leads back. -/
theorem IsGotoGraph.goto?_ne_initial (ha : a.IsGotoGraph) (source : StateId) (x : Symbol) :
    a.goto? source x ≠ some Automaton.initial := by
  intro h
  obtain ⟨before, items, -, hitems, hgoto⟩ := ha.exists_of_goto? h
  obtain rfl := Option.some.inj (ha.initial.symm.trans hitems)
  obtain ⟨i, hi, hx⟩ := ItemSet.exists_next?_of_goto? hgoto
  -- Goto has moved a dot, and no dot of the initial state was moved.
  have hmoved := ItemSet.dot_eq_zero_of_mem_start
    ((ItemSet.mem_of_goto?_eq_some_iff hgoto).2 ⟨i, hi, hx, .refl⟩)
  exact Nat.succ_ne_zero i.dot hmoved

/-- A state other than the initial one has an edge into it. -/
theorem exists_goto?_of_ne_initial (hid : (ofGrammar g).items? id = some items)
    (hne : id ≠ initial) : ∃ source x, (ofGrammar g).goto? source x = some id := by
  rcases (exists_items?_iff.1 ⟨id, hid⟩).cases_tail with hstart | ⟨before, hbefore, x, hgoto⟩
  · rw [hstart] at hid
    exact absurd (items?_inj hid (items?_initial g)) hne
  · obtain ⟨source, hsource⟩ := exists_items?_iff.2 hbefore
    exact ⟨source, x, ((isGotoGraph_ofGrammar g).goto?_eq_some_iff hsource).2 ⟨items, hgoto, hid⟩⟩

/-! ## The symbol over which a state is entered -/

/-- The state with the given items is entered, by edges over `x` only. Its items whose dots are not
    in front, and there are some, have `x` right before the dot, and every state with an edge to it
    has them with the dot one place back. -/
structure IsEnteredOver (a : Automaton) (id : StateId) (items : ItemSet) (x : Symbol) : Prop where
  exists_goto? : ∃ source, a.goto? source x = some id
  eq_of_goto? : ∀ source y, a.goto? source y = some id → y = x
  exists_succ_mem : ∃ p d, ⟨p, d + 1⟩ ∈ items
  next?_eq : ∀ p d, ⟨p, d + 1⟩ ∈ items → Item.next? a.grammar ⟨p, d⟩ = some x
  mem_source : ∀ source before, a.items? source = some before → a.goto? source x = some id →
    ∀ p d, ⟨p, d + 1⟩ ∈ items → ⟨p, d⟩ ∈ before

/-- **Every state but the initial one is entered over one symbol**, and its items tell which. -/
theorem exists_isEnteredOver (hid : (ofGrammar g).items? id = some items) (hne : id ≠ initial) :
    ∃ x, (ofGrammar g).IsEnteredOver id items x := by
  have hgraph := isGotoGraph_ofGrammar g
  have hmoved : ∀ source before y, (ofGrammar g).items? source = some before →
      (ofGrammar g).goto? source y = some id → before.goto? g y = some items := by
    intro source before y hbefore h
    obtain ⟨target, hgoto, htarget⟩ := (hgraph.goto?_eq_some_iff hbefore).1 h
    exact hgoto.trans (htarget.symm.trans hid)
  obtain ⟨source, x, hx⟩ := exists_goto?_of_ne_initial hid hne
  obtain ⟨before, hbefore⟩ := exists_items?_of_goto? hx
  have hgoto := hmoved source before x hbefore hx
  obtain ⟨⟨p, d⟩, hi, hnext⟩ := ItemSet.exists_next?_of_goto? hgoto
  have hsucc : ⟨p, d + 1⟩ ∈ items :=
    (ItemSet.mem_of_goto?_eq_some_iff hgoto).2 ⟨⟨p, d⟩, hi, hnext, .refl⟩
  refine ⟨x, ⟨source, hx⟩, ?_, ⟨p, d, hsucc⟩, ?_, ?_⟩
  · intro other y hy
    obtain ⟨first, hfirst⟩ := exists_items?_of_goto? hy
    -- The other edge has moved the same dot.
    have hsame := (ItemSet.mem_of_succ_mem_goto? (hmoved other first y hfirst hy) hsucc).2
    exact Option.some.inj (hsame.symm.trans hnext)
  · intro q e hq
    exact (ItemSet.mem_of_succ_mem_goto? hgoto hq).2
  · intro other first hfirst h q e hq
    exact (ItemSet.mem_of_succ_mem_goto? (hmoved other first x hfirst h) hq).1

end Automaton

/-! ## A state with several ways in -/

namespace Grammar

/-- Words of one letter, by rules that leave open where a word is split and how often nothing is
    done. Its table has conflicts, which are tolerated. -/
def repetitions : Grammar where
  terminals := .ofList ([.terminal "w"] : Word)
  nonterminals := .ofList ([.nonterminal "W"] : Word)
  productions := [
    ⟨[.nonterminal "W"], [.nonterminal "W"], .contextFree, by decide⟩,
    ⟨[.nonterminal "W"], [.nonterminal "W", .nonterminal "W"], .contextFree, by decide⟩,
    ⟨[.nonterminal "W"], [.terminal "w"], .contextFree, by decide⟩]
  start := .nonterminal "W"
  options := .lenient
  sound := Parts.fault?_eq_none_iff.1 (by decide +kernel)
  distinct := by decide

theorem isContextFree_repetitions : repetitions.IsContextFree := by decide +kernel

end Grammar

/-- The state after two `W` is entered from the state after one `W` and from itself. -/
theorem Automaton.isEnteredOver_repetitions :
    ∃ a items, a = ofGrammar (Grammar.repetitions.augmented Grammar.isContextFree_repetitions) ∧
      a.items? 3 = some items ∧ (3 : StateId) ≠ initial ∧
      a.goto? 1 (.nonterminal "W") = some 3 ∧ a.goto? 3 (.nonterminal "W") = some 3 ∧
      a.IsEnteredOver 3 items (.nonterminal "W") := by
  let a := ofGrammar (Grammar.repetitions.augmented Grammar.isContextFree_repetitions)
  have hedges : a.goto? 1 (.nonterminal "W") = some 3 ∧ a.goto? 3 (.nonterminal "W") = some 3 := by
    decide +kernel
  obtain ⟨hfirst, hself⟩ := hedges
  obtain ⟨items, hitems⟩ := exists_items?_of_goto? hself
  have hne : (3 : StateId) ≠ initial := by decide
  obtain ⟨x, hx⟩ := exists_isEnteredOver hitems hne
  obtain rfl := hx.eq_of_goto? 1 (.nonterminal "W") hfirst
  exact ⟨a, items, rfl, hitems, hne, hfirst, hself, hx⟩

end ShiftReduce
