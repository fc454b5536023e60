import ShiftReduce.Parser
import ShiftReduce.Proofs.ActionTable.Cell
import ShiftReduce.Proofs.Automaton.Path

set_option autoImplicit false

/-! # Stacks and moves

On a parser's stack each state is the one that its symbol leads to from the state below, so the top
state has the items that the symbols on the stack lead to. What a table says about the top state is
therefore said about these symbols: before a reduction they end with the right side that it takes
away, and before acceptance they are the start symbol alone.

**`TableSource.shift_spec`**, **`TableSource.reduce_spec`**, **`TableSource.accept_spec`**: what
each move finds on the stack and leaves there. -/

namespace ShiftReduce

/-- Each state on the stack is the one that its symbol leads to from the state below. -/
def IsStack (a : Automaton) : List Frame → Prop
  | [] => True
  | f :: rest => a.goto? (topState rest) f.symbol = some f.state ∧ IsStack a rest

/-- The symbols on a stack from bottom to top. -/
def symbolsOn (stack : List Frame) : Word :=
  (stack.map Frame.symbol).reverse

/-- The symbols on the stack and the input that is left. -/
def Configuration.word (c : Configuration) : Word :=
  c.symbols ++ c.input

variable {a : Automaton} {g : AugmentedGrammar} {stack : List Frame} {c d : Configuration}
  {u v : Word} {s : Symbol} {id : ProductionId} {target : StateId}

theorem symbolsOn_cons (f : Frame) (rest : List Frame) :
    symbolsOn (f :: rest) = symbolsOn rest ++ [f.symbol] := by
  rw [symbolsOn, List.map_cons, List.reverse_cons]
  rfl

theorem length_symbolsOn (stack : List Frame) : (symbolsOn stack).length = stack.length := by
  rw [symbolsOn, List.length_reverse, List.length_map]

/-- A stack with one symbol on it has the state that this symbol led to on top. -/
theorem eq_singleton_of_symbolsOn (h : symbolsOn stack = [s]) : stack = [⟨s, topState stack⟩] := by
  have hlen := length_symbolsOn stack
  rw [h] at hlen
  obtain ⟨f, rfl⟩ := List.length_eq_one_iff.1 hlen.symm
  obtain rfl : f.symbol = s := (List.cons.inj h).1
  rfl

/-- The frames on top of the stack have the symbols at the end of the word. -/
theorem symbolsOn_take (h : symbolsOn stack = u ++ v) : symbolsOn (stack.take v.length) = v := by
  have hlen : stack.length - v.length = u.length := by
    rw [← length_symbolsOn, h, List.length_append, Nat.add_sub_cancel]
  rw [symbolsOn, List.map_take, List.reverse_take, List.length_map, hlen]
  show (symbolsOn stack).drop u.length = v
  rw [h, List.drop_left]

/-- Taking frames off the stack takes their symbols off the end of the word. -/
theorem symbolsOn_drop (h : symbolsOn stack = u ++ v) : symbolsOn (stack.drop v.length) = u := by
  have hlen : stack.length = u.length + v.length := by
    rw [← length_symbolsOn, h, List.length_append]
  rw [symbolsOn, List.map_drop, List.reverse_drop, List.length_map, hlen, Nat.add_sub_cancel]
  show (symbolsOn stack).take u.length = u
  rw [h, List.take_left]

namespace IsStack

theorem drop (h : IsStack a stack) (n : Nat) : IsStack a (stack.drop n) := by
  induction n generalizing stack with
  | zero => exact h
  | succ n ih =>
    cases stack with
    | nil => exact h
    | cons f rest => exact ih h.2

/-- A stack is told by its symbols. -/
theorem eq_of_symbolsOn {stack' : List Frame} (h : IsStack a stack) (h' : IsStack a stack')
    (heq : symbolsOn stack = symbolsOn stack') : stack = stack' := by
  induction stack generalizing stack' with
  | nil =>
    have hlen := length_symbolsOn stack'
    rw [← heq] at hlen
    exact (List.eq_nil_of_length_eq_zero hlen.symm).symm
  | cons f rest ih =>
    cases stack' with
    | nil => simp [symbolsOn] at heq
    | cons f' rest' =>
      rw [symbolsOn_cons, symbolsOn_cons] at heq
      obtain ⟨hrest, hsymbol⟩ := List.append_inj' heq rfl
      obtain rfl := ih h.2 h'.2 hrest
      obtain ⟨s, target⟩ := f
      obtain ⟨s', target'⟩ := f'
      obtain rfl : s = s' := List.singleton_inj.1 hsymbol
      obtain rfl : target = target' := Option.some.inj (h.1.symm.trans h'.1)
      rfl

/-- The symbols on the stack lead to the state on top of it. -/
theorem path?_eq (h : IsStack a stack) :
    a.path? Automaton.initial (symbolsOn stack) = some (topState stack) := by
  induction stack with
  | nil => rfl
  | cons f rest ih =>
    rw [symbolsOn_cons, Automaton.path?_concat, ih h.2, Option.bind_some, h.1]
    rfl

/-- The state on top of the stack has the items that the symbols on the stack lead to. -/
theorem exists_state? (h : IsStack (.ofGrammar g) stack) :
    ∃ st, (Automaton.ofGrammar g).state? (topState stack) = some st ∧
      ItemSet.reached? g (symbolsOn stack) = some st.items := by
  obtain ⟨items, hitems, hreached⟩ := Automaton.reached?_of_path? h.path?_eq
  obtain ⟨st, hst, rfl⟩ := Option.map_eq_some_iff.1 hitems
  exact ⟨st, hst, hreached⟩

/-- Where a symbol leads after those on the stack, it can be put onto the stack. -/
theorem exists_goto? {items : ItemSet} (h : IsStack (.ofGrammar g) stack)
    (hs : ItemSet.reached? g (symbolsOn stack ++ [s]) = some items) :
    ∃ target, (Automaton.ofGrammar g).goto? (topState stack) s = some target := by
  obtain ⟨target, hpath, -⟩ := Automaton.path?_of_reached? hs
  rw [Automaton.path?_concat, h.path?_eq, Option.bind_some] at hpath
  exact ⟨target, hpath⟩

end IsStack

/-! ## Moves -/

namespace TableSource

/-- The parser with the automaton and the table, whether or not there are conflicts. -/
def parser (t : TableSource) : Parser where
  automaton := t.automaton
  table := .tabulate t

variable {t : TableSource}

/-- The table's action is the first candidate for the top state and the lookahead. -/
theorem action?_parser_eq_some_iff {action : Action} : t.parser.action? c = some action ↔
    ∃ st, t.automaton.state? (topState c.stack) = some st ∧ IsLookahead t.terminals c.lookahead ∧
      (t.candidatesIn st c.lookahead).head? = some action := by
  unfold Parser.action? parser
  simp only
  rw [ActionTable.action?_tabulate]
  unfold candidates
  cases t.automaton.state? (topState c.stack) with
  | none => simp [Except.map]
  | some st =>
    by_cases hs : IsLookahead t.terminals c.lookahead
    · simp [hs, Except.map]
    · simp [hs, Except.map]

theorem exists_mem_candidatesIn {action : Action} (h : t.parser.action? c = some action) :
    ∃ st, t.automaton.state? (topState c.stack) = some st ∧
      action ∈ t.candidatesIn st c.lookahead := by
  obtain ⟨st, hst, -, hhead⟩ := action?_parser_eq_some_iff.1 h
  exact ⟨st, hst, List.mem_of_head? hhead⟩

/-- A shift is along the edge over the lookahead, which an item has after its dot. -/
theorem goto?_of_shift (haction : t.parser.action? c = some (.shift target)) :
    t.automaton.goto? (topState c.stack) c.lookahead = some target ∧
      ∃ i : Item, i.next? t.automaton.grammar = some c.lookahead := by
  obtain ⟨st, hst, hmem⟩ := exists_mem_candidatesIn haction
  obtain ⟨⟨i, -, hi⟩, hedge⟩ := shift_mem_candidatesIn_iff.1 hmem
  refine ⟨?_, i, hi⟩
  rw [Automaton.goto?, hst]
  exact hedge

/-- A shift puts the next symbol of the input onto the stack. -/
theorem shift_spec (hc : IsStack t.automaton c.stack)
    (haction : t.parser.action? c = some (.shift target))
    (hmove : Parser.shift? c target = some d) :
    IsStack t.automaton d.stack ∧ ∃ s, c.input = s :: d.input ∧ d.symbols = c.symbols ++ [s] := by
  have hgoto := (goto?_of_shift haction).1
  unfold Parser.shift? at hmove
  split at hmove
  · next s rest hinput =>
    obtain rfl := Option.some.inj hmove
    rw [Configuration.lookahead, hinput] at hgoto
    exact ⟨⟨hgoto, hc⟩, s, hinput, symbolsOn_cons ⟨s, target⟩ c.stack⟩
  · simp at hmove

/-- What is reduced is a right side at the end of the symbols on the stack, and the symbols before
    it lead to where its rule begins. -/
theorem exists_handle_of_reduce (ht : t.automaton = .ofGrammar g) (hc : IsStack t.automaton c.stack)
    (haction : t.parser.action? c = some (.reduce id)) :
    ∃ p s u, g.rules[id]? = some p ∧ p.lhs? = some s ∧ c.symbols = u ++ p.right ∧
      ∃ before, ItemSet.reached? g u = some before ∧ ⟨id, 0⟩ ∈ before := by
  obtain ⟨st, hst, hmem⟩ := exists_mem_candidatesIn haction
  obtain ⟨i, hi, rfl, hcomplete, s, hs, hmay⟩ := reduce_mem_candidatesIn_iff.1 hmem
  have hgrammar : t.automaton.grammar = g := congrArg Automaton.grammar ht
  rw [hgrammar] at hcomplete hs
  rw [ht] at hc hst
  obtain ⟨p, hp, hdot⟩ := Item.isComplete_iff.1 hcomplete
  obtain ⟨q, hq, hlhs⟩ := Item.lhs?_eq_some_iff.1 hs
  obtain rfl := Option.some.inj (hq.symm.trans hp)
  obtain ⟨st', hst', hreached⟩ := hc.exists_state?
  obtain rfl := Option.some.inj (hst'.symm.trans hst)
  obtain ⟨r, hr, hrange⟩ := ItemSet.inRange_of_mem_reached? hreached hi
  obtain rfl := Option.some.inj (hr.symm.trans hp)
  obtain ⟨u, before, hsymbols, hu, hfirst⟩ := ItemSet.exists_prefix_of_mem_reached? hreached hi hp
  rw [List.take_of_length_le hdot] at hsymbols
  have hrule : g.rules[i.production]? = some r := by
    rcases AugmentedGrammar.production?_eq_some_iff.1 hp with ⟨-, rfl⟩ | hrule
    · rw [g.lhs?_augmentedProduction, Option.some.injEq] at hlhs
      simp [mayReduce, ← hlhs] at hmay
    · exact hrule
  exact ⟨r, s, u, hrule, hlhs, hsymbols, before, hu, hfirst⟩

/-- With enough on the stack and an edge below it, a reduction can be made. -/
theorem reduce?_eq_some {p : Production} (ht : t.automaton = .ofGrammar g)
    (hp : g.production? id = some p) (hs : p.lhs? = some s)
    (hlen : p.right.length ≤ c.stack.length)
    (hgoto : t.automaton.goto? (topState (c.stack.drop p.right.length)) s = some target) :
    t.parser.reduce? c id = some ⟨⟨s, target⟩ :: c.stack.drop p.right.length, c.input⟩ := by
  have hproduction : t.automaton.grammar.production? id = some p := by
    rw [ht]
    exact hp
  simp only [Parser.reduce?, parser, hproduction, hs, hgoto, hlen, Option.bind_eq_bind,
    Option.bind_some, if_true]

/-- A reduction by a rule replaces its right side at the end of the symbols on the stack. -/
theorem reduce_spec (ht : t.automaton = .ofGrammar g) (hc : IsStack t.automaton c.stack)
    (haction : t.parser.action? c = some (.reduce id)) (hmove : t.parser.reduce? c id = some d) :
    IsStack t.automaton d.stack ∧ d.input = c.input ∧
      ∃ p s u, g.rules[id]? = some p ∧ p.lhs? = some s ∧ c.symbols = u ++ p.right ∧
        d.symbols = u ++ [s] := by
  obtain ⟨p, s, u, hp, hs, hsymbols, -⟩ := exists_handle_of_reduce ht hc haction
  have hproduction : t.automaton.grammar.production? id = some p := by
    rw [ht]
    exact AugmentedGrammar.production?_of_getElem? hp
  simp only [Parser.reduce?, parser, hproduction, hs, Option.bind_eq_bind, Option.bind_some,
    Option.bind_eq_some_iff, Option.ite_none_right_eq_some, Option.some.injEq] at hmove
  obtain ⟨target, hgoto, -, rfl⟩ := hmove
  refine ⟨⟨hgoto, hc.drop _⟩, rfl, p, s, u, hp, hs, hsymbols, ?_⟩
  rw [← symbolsOn_drop hsymbols]
  exact symbolsOn_cons ⟨s, target⟩ _

/-- The input is accepted at its end, with the start symbol alone on the stack. -/
theorem accept_spec (ht : t.automaton = .ofGrammar g) (hc : IsStack t.automaton c.stack)
    (haction : t.parser.action? c = some .accept) :
    c.lookahead = .eof ∧ c.symbols = [g.start] := by
  obtain ⟨st, hst, hmem⟩ := exists_mem_candidatesIn haction
  obtain ⟨heof, hi⟩ := accept_mem_candidatesIn_iff.1 hmem
  rw [ht] at hc hst hi
  obtain ⟨st', hst', hreached⟩ := hc.exists_state?
  obtain rfl := Option.some.inj (hst'.symm.trans hst)
  exact ⟨heof, (ItemSet.final_mem_reached?_iff hreached).1 hi⟩

end TableSource

end ShiftReduce
