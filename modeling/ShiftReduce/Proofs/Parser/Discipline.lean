import ShiftReduce.Proofs.Automaton.Kernel
import ShiftReduce.Proofs.Parser.Soundness

set_option autoImplicit false

/-! # No move is stuck

What a table asks for can always be done: the symbol that is shifted is there, the right side that
is reduced is on top of the stack, and below it waits an item that has the left side after its dot,
so there is an edge to go on with. Merged states make no difference, since every stack below a state
leads to the same items. Conflicts make none either, since every candidate can be carried out, and so
can the one that the table prefers.

**`TableSource.exists_next?`**: only acceptance and an empty cell end a run.
**`Parser.isDisciplined_of_runs`**: what each move finds, in every configuration of every run. -/

namespace ShiftReduce

variable {g : AugmentedGrammar} {t : TableSource} {c : Configuration} {stack : List Frame}
  {id : ProductionId} {target : StateId}

theorem IsStack.topState_lt_size (h : IsStack (.ofGrammar g) stack) :
    topState stack < (Automaton.ofGrammar g).size := by
  obtain ⟨st, hst, -⟩ := h.exists_state?
  exact (List.getElem?_eq_some_iff.1 hst).1

namespace TableSource

/-! ## What the moves find -/

/-- No right side has the end of the input in it, so the end is never shifted. -/
theorem lookahead_ne_eof_of_shift (haction : t.parser.action? c = some (.shift target)) :
    c.lookahead ≠ .eof := by
  obtain ⟨-, i, hi⟩ := goto?_of_shift haction
  have hsentinel := Item.isSentinel_of_next? hi
  intro heof
  rw [heof] at hsentinel
  exact Bool.noConfusion hsentinel

theorem lt_size_of_shift (ht : t.automaton = .ofGrammar g) (hc : IsStack t.automaton c.stack)
    (haction : t.parser.action? c = some (.shift target)) : target < t.automaton.size := by
  have hpushed : IsStack t.automaton (⟨c.lookahead, target⟩ :: c.stack) :=
    ⟨(goto?_of_shift haction).1, hc⟩
  rw [ht] at hpushed ⊢
  exact hpushed.topState_lt_size

/-- The right side is on top of the stack, and the state below it has an edge over the left side. -/
theorem exists_goto?_of_reduce (ht : t.automaton = .ofGrammar g) (hc : IsStack t.automaton c.stack)
    (haction : t.parser.action? c = some (.reduce id)) :
    ∃ p s target, g.rules[id]? = some p ∧ p.lhs? = some s ∧ p.right.length ≤ c.stack.length ∧
      symbolsOn (c.stack.take p.right.length) = p.right ∧
      t.automaton.goto? (topState (c.stack.drop p.right.length)) s = some target := by
  obtain ⟨p, s, u, hp, hs, hsymbols, before, hu, hfirst⟩ := exists_handle_of_reduce ht hc haction
  have hsymbols : symbolsOn c.stack = u ++ p.right := hsymbols
  have hlen : c.stack.length = u.length + p.right.length := by
    rw [← length_symbolsOn, hsymbols, List.length_append]
  -- The rule begins below its right side, so an item there has the left side after its dot.
  have hlhs : Item.lhs? g ⟨id, 0⟩ = some s :=
    Item.lhs?_eq_some_iff.2 ⟨p, AugmentedGrammar.production?_of_getElem? hp, hs⟩
  have hne : id ≠ g.augmented := Nat.ne_of_lt (List.getElem?_eq_some_iff.1 hp).1
  obtain ⟨r, hr, i, hi, hnext⟩ := (ItemSet.isReachable_iff.2 ⟨u, hu⟩).exists_next?_eq hfirst hne
  obtain rfl := Option.some.inj (hlhs.symm.trans hr)
  obtain ⟨items, hitems, -⟩ := ItemSet.exists_goto?_of_mem hi hnext
  have hreached : ItemSet.reached? g (symbolsOn (c.stack.drop p.right.length) ++ [s]) =
      some items := by
    rw [symbolsOn_drop hsymbols, ItemSet.reached?_concat, hu, Option.bind_some, hitems]
  have hexposed := hc.drop p.right.length
  rw [ht] at hexposed
  obtain ⟨target, hgoto⟩ := hexposed.exists_goto? hreached
  exact ⟨p, s, target, hp, hs, by omega, symbolsOn_take hsymbols, ht ▸ hgoto⟩

/-- Acceptance finds the start symbol on the stack and the accepting state, and nothing else. -/
theorem exists_accepting?_of_accept (ht : t.automaton = .ofGrammar g)
    (hc : IsStack t.automaton c.stack) (haction : t.parser.action? c = some .accept) :
    ∃ target, t.automaton.accepting? = some target ∧ c.stack = [⟨g.start, target⟩] := by
  obtain ⟨-, hsymbols⟩ := accept_spec ht hc haction
  have hsymbols : symbolsOn c.stack = [g.start] := hsymbols
  obtain ⟨target, haccepting, hpath⟩ := Automaton.accepting?_ofGrammar g
  rw [ht] at hc ⊢
  -- The state on top is where the start symbol leads, which is the accepting state.
  have htop := hc.path?_eq
  rw [hsymbols, hpath, Option.some.injEq] at htop
  exact ⟨target, haccepting, htop ▸ eq_singleton_of_symbolsOn hsymbols⟩

/-- Where the table asks for a move, the move can be made. -/
theorem exists_next? (ht : t.automaton = .ofGrammar g) (hc : IsStack t.automaton c.stack)
    {action : Action} (haction : t.parser.action? c = some action) (hne : action ≠ .accept) :
    ∃ d, t.parser.next? c = some d := by
  unfold Parser.next?
  rw [haction]
  cases action with
  | shift target =>
    have heof := lookahead_ne_eof_of_shift haction
    unfold Parser.shift?
    cases hinput : c.input with
    | nil => simp [Configuration.lookahead, hinput] at heof
    | cons s rest => exact ⟨_, rfl⟩
  | reduce id =>
    obtain ⟨p, s, target, hp, hs, hlen, -, hgoto⟩ := exists_goto?_of_reduce ht hc haction
    have hproduction := AugmentedGrammar.production?_of_getElem? hp
    exact ⟨_, reduce?_eq_some ht hproduction hs hlen hgoto⟩
  | accept => exact absurd rfl hne

end TableSource

/-! ## Runs of a grammar's parser -/

namespace Parser

/-- Whether the stack is a path of the automaton, and every move that the table asks for finds what
    it needs. -/
structure IsDisciplined (g : Grammar) (P : Parser) (c : Configuration) : Prop where
  isStack : IsStack P.automaton c.stack
  inRange : topState c.stack < P.table.size
  shift : ∀ target, P.action? c = some (.shift target) →
    c.lookahead ≠ .eof ∧ P.automaton.goto? (topState c.stack) c.lookahead = some target ∧
      target < P.automaton.size
  reduce : ∀ id, P.action? c = some (.reduce id) →
    ∃ p s target, g.productions[id]? = some p ∧ p.lhs? = some s ∧
      p.right.length ≤ c.stack.length ∧ symbolsOn (c.stack.take p.right.length) = p.right ∧
      P.automaton.goto? (topState (c.stack.drop p.right.length)) s = some target
  accept : P.action? c = some .accept →
    c.input = [] ∧ ∃ target, P.automaton.accepting? = some target ∧
      c.stack = [⟨g.start, target⟩]
  progress : ∀ action, P.action? c = some action → action ≠ .accept → ∃ d, P.next? c = some d

/-- **A parser keeps the discipline of its stack**: on terminal words, those with unknown terminals
    too, every configuration of every run has a path of the automaton on its stack, and no move that
    the table asks for is stuck. -/
theorem isDisciplined_of_runs {g : Grammar} {a : Automaton} {table : ActionTable} {w : Word}
    {ids : List ProductionId} {c : Configuration} (ha : g.answer Session.automaton = .ok a)
    (htable : g.answer Session.actionTable = .ok table) (hw : w.IsTerminal)
    (hruns : Parser.Runs ⟨a, table⟩ ⟨[], w⟩ ids c) : IsDisciplined g ⟨a, table⟩ c := by
  obtain ⟨h, rfl⟩ := Grammar.answer_automaton_eq_ok_iff.1 ha
  obtain ⟨_, hbuild⟩ := Grammar.answer_actionTable_eq_ok_iff.1 htable
  obtain rfl := ActionTable.eq_tabulate_of_build hbuild
  have ht : (g.tableSource h).automaton = .ofGrammar (g.augmented h) := rfl
  have hreached : TableSource.Reached (g.augmented h) ⟨[], w⟩ ids c :=
    TableSource.reached_of_runs (t := g.tableSource h) ht trivial hw hruns
  have hc : IsStack (g.tableSource h).automaton c.stack := hreached.isStack
  refine ⟨hc, ?_, ?_, ?_, ?_, ?_⟩
  · rw [ActionTable.size, ActionTable.tabulate, List.length_map]
    exact hreached.isStack.topState_lt_size
  · intro target haction
    exact ⟨TableSource.lookahead_ne_eof_of_shift haction,
      (TableSource.goto?_of_shift haction).1, TableSource.lt_size_of_shift ht hc haction⟩
  · intro id haction
    exact TableSource.exists_goto?_of_reduce ht hc haction
  · intro haction
    obtain ⟨heof, -⟩ := TableSource.accept_spec ht hc haction
    exact ⟨Configuration.input_eq_nil heof hreached.isTerminal,
      TableSource.exists_accepting?_of_accept ht hc haction⟩
  · intro action haction hne
    exact TableSource.exists_next? ht hc haction hne

end Parser

/-- Where the table prefers a shift in a conflict, the stack grows to three `S`, and the reduction
    then finds the two on top. -/
theorem Parser.isDisciplined_sequences :
    ∃ ids c, (Grammar.sequences.tableSource Grammar.isContextFree_sequences).parser.Runs
        ⟨[], [.terminal "a", .terminal "a", .terminal "a"]⟩ ids c ∧
      (Grammar.sequences.tableSource Grammar.isContextFree_sequences).parser.action? c =
        some (.reduce 0) ∧
      c.symbols = [.nonterminal "S", .nonterminal "S", .nonterminal "S"] ∧
      IsDisciplined Grammar.sequences
        (Grammar.sequences.tableSource Grammar.isContextFree_sequences).parser c := by
  let source := Grammar.sequences.tableSource Grammar.isContextFree_sequences
  have ha : Grammar.sequences.answer Session.automaton = .ok source.automaton :=
    Grammar.answer_automaton_eq_ok_iff.2 ⟨Grammar.isContextFree_sequences, rfl⟩
  have htable : Grammar.sequences.answer Session.actionTable = .ok (.tabulate source) :=
    Grammar.answer_actionTable_eq_ok_iff.2
      ⟨Grammar.isContextFree_sequences, Grammar.build_sequences⟩
  have hruns := source.parser.runs_after ⟨[], [.terminal "a", .terminal "a", .terminal "a"]⟩ 6
  refine ⟨_, _, hruns, ?_, ?_, isDisciplined_of_runs ha htable (by decide) hruns⟩
  · decide +kernel
  · decide +kernel

end ShiftReduce
