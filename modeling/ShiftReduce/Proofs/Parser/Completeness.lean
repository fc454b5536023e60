import ShiftReduce.Proofs.Automaton.ViablePrefix
import ShiftReduce.Proofs.Follow.Closed
import ShiftReduce.Proofs.Parser.Run
import ShiftReduce.Proofs.Parser.Stack
import ShiftReduce.Proofs.Session.Coherent

set_option autoImplicit false

/-! # Completeness of tables without conflicts

A rightmost derivation is parsed from its end. For each of its words the stack holds everything up
to the last nonterminal. To undo the step before it, what is missing of the handle is shifted, which
the automaton allows since the handle ends a viable prefix. Then the handle is reduced, which the
FOLLOW table allows since what comes after the handle can follow its left side. Without conflicts
no other action stands in the way.

**`TableSource.accepts_of_derivesRightmost`**: the productions of every rightmost derivation, read
backwards, are those of an accepting run.
**`Parser.exists_accepts_of_generates`**: every generated word is accepted. -/

namespace ShiftReduce

variable {g : AugmentedGrammar} {t : TableSource} {c d : Configuration} {stack : List Frame}
  {before after v w rest : Word} {s : Symbol} {p : Production} {id : ProductionId}
  {ids : List ProductionId} {items : ItemSet}

/-- A derivation from the start symbol is one from `S′` with one more step. -/
theorem isHandle_of_derivesRightmost (hp : g.rules[id]? = some p) (hs : p.lhs? = some s)
    (h : DerivesRightmost g.rules ids [g.start] (before ++ s :: after))
    (hafter : after.IsTerminal) : IsHandle g id p before after := by
  have hstep : YieldsRightmost g.productions g.augmented [.start] [g.start] := by
    refine ⟨g.augmentedProduction, ?_, .start, rfl, [], [], .nil, rfl, rfl⟩
    rw [← g.production?_eq_getElem?]
    exact g.production?_augmented
  refine ⟨AugmentedGrammar.production?_of_getElem? hp, hafter, s, g.augmented :: ids, hs, ?_⟩
  exact .head hstep (h.append_productions [g.augmentedProduction])

/-- No rule has `S′` on its left side. -/
theorem lhs_ne_start (hp : g.rules[id]? = some p) (hs : p.lhs? = some s) : s ≠ .start := by
  obtain ⟨name, hname⟩ := AugmentedGrammar.lhs?_of_mem_rules (List.mem_of_getElem? hp)
  rw [hname, Option.some.injEq] at hs
  simp [← hs]

namespace TableSource

/-- The automaton is that of the grammar, and the FOLLOW table has what its rules ask for. -/
structure IsSourceOf (g : AugmentedGrammar) (t : TableSource) : Prop where
  automaton_eq : t.automaton = .ofGrammar g
  isClosed : ∃ first, FirstTable.IsClosed g.rules first ∧ t.follow.IsClosed first g.rules
  eof_mem : .eof ∈ t.follow.sets.entry g.start
  isTerminal : ∀ s ∈ t.terminals, s.isTerminal = true

/-! ## The next move -/

/-- Without conflicts every candidate is taken. -/
theorem action?_of_mem {st : State} {action : Action} (hfree : t.IsConflictFree)
    (hst : t.automaton.state? (topState c.stack) = some st)
    (hlookahead : IsLookahead t.terminals c.lookahead)
    (hmem : action ∈ t.candidatesIn st c.lookahead) : t.parser.action? c = some action := by
  have hstate : st ∈ t.automaton.states := List.mem_of_getElem? hst
  exact action?_parser_eq_some_iff.2
    ⟨st, hst, hlookahead, head?_candidatesIn_of_mem hfree hstate hlookahead hmem⟩

/-- Where a terminal leads after the symbols on the stack, it is shifted. -/
theorem exists_shift (ht : t.IsSourceOf g) (hfree : t.IsConflictFree)
    (hstack : IsStack (.ofGrammar g) stack) (hs : s ∈ t.terminals)
    (hreached : ItemSet.reached? g (symbolsOn stack ++ [s]) = some items) (rest : Word) :
    ∃ target, (Automaton.ofGrammar g).goto? (topState stack) s = some target ∧
      t.parser.action? ⟨stack, s :: rest⟩ = some (.shift target) := by
  obtain ⟨target, hgoto⟩ := hstack.exists_goto? hreached
  obtain ⟨st, hst, hitems⟩ := hstack.exists_state?
  have hnext : ∃ i ∈ st.items, i.next? g = some s := by
    rw [ItemSet.reached?_concat, hitems, Option.bind_some] at hreached
    exact ItemSet.exists_next?_of_goto? hreached
  have hedge : st.edges[s]? = some target := by
    rw [Automaton.goto?, hst] at hgoto
    exact hgoto
  have hmem : .shift target ∈ t.candidatesIn st s := by
    rw [shift_mem_candidatesIn_iff, ht.automaton_eq]
    exact ⟨hnext, hedge⟩
  rw [← ht.automaton_eq] at hst
  exact ⟨target, hgoto, action?_of_mem hfree hst (Or.inr hs) hmem⟩

/-- After the start symbol alone the end of the input is accepted. -/
theorem action?_eq_accept (ht : t.IsSourceOf g) (hfree : t.IsConflictFree)
    (hstack : IsStack (.ofGrammar g) stack) (hsymbols : symbolsOn stack = [g.start]) :
    t.parser.action? ⟨stack, []⟩ = some .accept := by
  obtain ⟨st, hst, hitems⟩ := hstack.exists_state?
  rw [hsymbols] at hitems
  have hfinal := (ItemSet.final_mem_reached?_iff hitems).2 rfl
  have hmem : .accept ∈ t.candidatesIn st .eof := by
    rw [accept_mem_candidatesIn_iff, ht.automaton_eq]
    exact ⟨rfl, hfinal⟩
  rw [← ht.automaton_eq] at hst
  exact action?_of_mem hfree hst (Or.inl rfl) hmem

/-- What comes after a nonterminal in a derived word may follow it. -/
theorem mayReduce_of_derives (ht : t.IsSourceOf g) (hs : s.isNonterminal = true) (hne : s ≠ .start)
    (h : Derives g.rules [g.start] (before ++ s :: after)) (hafter : after.IsTerminal) :
    t.mayReduce s (after.headD .eof) = true := by
  obtain ⟨first, hfirst, hfollow⟩ := ht.isClosed
  obtain ⟨hdirect, htail⟩ := hfollow.mem_of_derives hfirst h rfl hs
  have hallows : t.follow.allows s (after.headD .eof) = true := by
    rw [FollowTable.allows, Std.ExtTreeSet.contains_iff_mem]
    cases after with
    | nil => exact htail rfl .eof ht.eof_mem
    | cons x rest =>
      refine hdirect x ?_
      rw [FirstTable.firstOf_terminal (hafter x List.mem_cons_self)]
      simp
  simp only [mayReduce, hallows, Bool.or_true, Bool.and_true, bne_iff_ne]
  exact hne

/-- A handle at the end of the symbols on the stack is reduced. -/
theorem action?_eq_reduce (ht : t.IsSourceOf g) (hfree : t.IsConflictFree)
    (hstack : IsStack (.ofGrammar g) stack) (hp : g.rules[id]? = some p) (hs : p.lhs? = some s)
    (hsymbols : symbolsOn stack = before ++ p.right) (hafter : ∀ x ∈ after, x ∈ t.terminals)
    (h : DerivesRightmost g.rules ids [g.start] (before ++ s :: after)) :
    t.parser.action? ⟨stack, after⟩ = some (.reduce id) := by
  have hterminal : after.IsTerminal := fun x hx => ht.isTerminal x (hafter x hx)
  have hhandle := isHandle_of_derivesRightmost hp hs h hterminal
  obtain ⟨st, hst, hitems⟩ := hstack.exists_state?
  obtain ⟨items, hreached, hcomplete⟩ := hhandle.exists_reached? (List.append_nil p.right).symm
  rw [hsymbols] at hitems
  obtain rfl : items = st.items := Option.some.inj (hreached.symm.trans hitems)
  have hmem : .reduce id ∈ t.candidatesIn st (after.headD .eof) := by
    rw [reduce_mem_candidatesIn_iff, ht.automaton_eq]
    refine ⟨_, hcomplete, rfl, Item.isComplete_iff.2 ⟨p, hhandle.1, Nat.le_refl _⟩, s,
      Item.lhs?_eq_some_iff.2 ⟨p, hhandle.1, hs⟩, ?_⟩
    exact mayReduce_of_derives ht (Production.isNonterminal_of_lhs? hs) (lhs_ne_start hp hs)
      h.derives hterminal
  have hlookahead : IsLookahead t.terminals (after.headD .eof) := by
    cases after with
    | nil => exact Or.inl rfl
    | cons x rest => exact Or.inr (hafter x List.mem_cons_self)
  rw [← ht.automaton_eq] at hst
  exact action?_of_mem hfree hst hlookahead hmem

/-- A handle at the end of the symbols on the stack can be replaced by its left side. -/
theorem exists_reduce? (ht : t.IsSourceOf g) (hstack : IsStack (.ofGrammar g) stack)
    (hhandle : IsHandle g id p before after) (hs : p.lhs? = some s) (hne : s ≠ .start)
    (hsymbols : symbolsOn stack = before ++ p.right) (input : Word) :
    ∃ target, IsStack (.ofGrammar g) (⟨s, target⟩ :: stack.drop p.right.length) ∧
      t.parser.reduce? ⟨stack, input⟩ id =
        some ⟨⟨s, target⟩ :: stack.drop p.right.length, input⟩ := by
  obtain ⟨_, hleft⟩ := hhandle.exists_reached?_lhs hs hne
  rw [← symbolsOn_drop hsymbols] at hleft
  have hdrop := hstack.drop p.right.length
  obtain ⟨target, hgoto⟩ := hdrop.exists_goto? hleft
  refine ⟨target, ⟨hgoto, hdrop⟩, ?_⟩
  have hlen : p.right.length ≤ stack.length := by
    rw [← length_symbolsOn, hsymbols, List.length_append]
    exact Nat.le_add_left _ _
  rw [← ht.automaton_eq] at hgoto
  exact reduce?_eq_some ht.automaton_eq hhandle.1 hs hlen hgoto

/-! ## Parsing backwards along a derivation -/

/-- The stack holds what comes before the last nonterminal of the word, and this nonterminal. What
    comes after it is the input that is left. -/
structure Parsed (g : AugmentedGrammar) (t : TableSource) (v : Word) (c : Configuration) :
    Prop where
  isStack : IsStack (.ofGrammar g) c.stack
  word_eq : c.word = v
  isLast : c.symbols = [] ∨ ∃ before s, c.symbols = before ++ [s] ∧ s.isNonterminal = true
  mem_terminals : ∀ s ∈ c.input, s ∈ t.terminals

/-- What comes before the terminals at the end of the word is the stack and some more of the
    input. -/
theorem Parsed.exists_eq_append (h : Parsed g t (v ++ after) c) (hafter : after.IsTerminal) :
    ∃ x, c.symbols ++ x = v ∧ c.input = x ++ after := by
  rcases List.append_eq_append_iff.1 h.word_eq with ⟨x, hv, hinput⟩ | ⟨x, hsymbols, hx⟩
  · exact ⟨x, hv.symm, hinput⟩
  · -- The stack cannot end within the terminals, since its last symbol is none.
    cases x using List.reverseRecOn with
    | nil => exact ⟨[], by simpa using hsymbols, by simpa using hx.symm⟩
    | append_singleton x s =>
      rcases h.isLast with hempty | ⟨before, s', hlast, hs'⟩
      · rw [hempty] at hsymbols
        simp at hsymbols
      · rw [hsymbols, ← List.append_assoc] at hlast
        obtain ⟨-, hs⟩ := List.append_inj' hlast rfl
        obtain rfl := List.singleton_inj.1 hs
        have hterminal := hafter s (by rw [hx]; simp)
        rw [Symbol.isNonterminal_of_isTerminal hterminal] at hs'
        simp at hs'

/-- Symbols that lead somewhere after those on the stack are all shifted. -/
theorem exists_runs_shifts (ht : t.IsSourceOf g) (hfree : t.IsConflictFree)
    (hstack : IsStack (.ofGrammar g) stack) (hv : ∀ s ∈ v, s ∈ t.terminals)
    (hreached : ItemSet.reached? g (symbolsOn stack ++ v) = some items)
    (h : t.parser.Runs c ids ⟨stack, v ++ rest⟩) :
    ∃ next, IsStack (.ofGrammar g) next ∧ symbolsOn next = symbolsOn stack ++ v ∧
      t.parser.Runs c ids ⟨next, rest⟩ := by
  induction v using List.reverseRecOn generalizing items rest with
  | nil => exact ⟨stack, hstack, (List.append_nil _).symm, h⟩
  | append_singleton v s ih =>
    rw [← List.append_assoc] at hreached
    obtain ⟨_, hbefore⟩ := ItemSet.exists_reached?_of_append hreached
    rw [List.append_assoc] at h
    obtain ⟨next, hnext, hsymbols, hruns⟩ :=
      ih (fun x hx => hv x (List.mem_append_left [s] hx)) hbefore h
    rw [← hsymbols] at hreached
    obtain ⟨target, hgoto, haction⟩ :=
      exists_shift ht hfree hnext (hv s (by simp)) hreached rest
    refine ⟨⟨s, target⟩ :: next, ⟨hgoto, hnext⟩, ?_, hruns.shift haction rfl⟩
    rw [symbolsOn_cons, hsymbols, List.append_assoc]

/-- A step of the derivation is undone by shifts and a reduction. -/
theorem Parsed.exists_runs (ht : t.IsSourceOf g) (hfree : t.IsConflictFree)
    {ids' : List ProductionId} {u : Word} (hu : DerivesRightmost g.rules ids' [g.start] u)
    (hstep : YieldsRightmost g.rules id u v) (h : Parsed g t v c)
    (hruns : t.parser.Runs ⟨[], w⟩ ids c) :
    ∃ d, Parsed g t u d ∧ t.parser.Runs ⟨[], w⟩ (ids ++ [id]) d := by
  obtain ⟨p, hp, s, hs, before, after, hafter, rfl, rfl⟩ := hstep
  obtain ⟨x, hsymbols, hinput⟩ := h.exists_eq_append hafter
  have hhandle := isHandle_of_derivesRightmost hp hs hu hafter
  obtain ⟨items, hreached, -⟩ := hhandle.exists_reached? (List.append_nil p.right).symm
  rw [← hsymbols] at hreached
  have hmem := h.mem_terminals
  rw [hinput] at hmem
  obtain ⟨stack, input⟩ := c
  obtain rfl : input = x ++ after := hinput
  obtain ⟨next, hnext, hnextSymbols, hruns⟩ := exists_runs_shifts ht hfree h.isStack
    (fun s hs => hmem s (List.mem_append_left after hs)) hreached hruns
  have hnextSymbols : symbolsOn next = before ++ p.right := hnextSymbols.trans hsymbols
  have hafterMem : ∀ s ∈ after, s ∈ t.terminals := fun s hs => hmem s (List.mem_append_right x hs)
  have haction := action?_eq_reduce ht hfree hnext hp hs hnextSymbols hafterMem hu
  obtain ⟨target, hstack, hmove⟩ :=
    exists_reduce? ht hnext hhandle hs (lhs_ne_start hp hs) hnextSymbols after
  have hfinal : symbolsOn (⟨s, target⟩ :: next.drop p.right.length) = before ++ [s] := by
    rw [symbolsOn_cons, symbolsOn_drop hnextSymbols]
  refine ⟨⟨⟨s, target⟩ :: next.drop p.right.length, after⟩,
    ⟨hstack, ?_, ?_, hafterMem⟩, hruns.reduce haction hmove⟩
  · show symbolsOn _ ++ after = _
    rw [hfinal, List.append_assoc, List.singleton_append]
  · exact Or.inr ⟨before, s, hfinal, Production.isNonterminal_of_lhs? hs⟩

/-- The induction is on the derivation from its end, so what is parsed is the word that the steps
    not yet undone come to. -/
theorem exists_parsed (ht : t.IsSourceOf g) (hfree : t.IsConflictFree)
    {ids' : List ProductionId} (hv : DerivesRightmost g.rules ids' [g.start] v)
    (h : DerivesRightmost g.rules ids v w) (hw : ∀ s ∈ w, s ∈ t.terminals) :
    ∃ c, Parsed g t v c ∧ t.parser.Runs ⟨[], w⟩ ids.reverse c := by
  induction h generalizing ids' with
  | refl w => exact ⟨⟨[], w⟩, ⟨trivial, rfl, Or.inl rfl, hw⟩, .refl _⟩
  | head hstep _ ih =>
    obtain ⟨c, hc, hruns⟩ := ih (hv.trans (.single hstep)) hw
    rw [List.reverse_cons]
    exact hc.exists_runs ht hfree hv hstep hruns

/-- A rightmost derivation of a word over the terminals is parsed to its beginning, where the word
    is accepted. -/
theorem accepts_of_derivesRightmost (ht : t.IsSourceOf g) (hfree : t.IsConflictFree)
    (h : DerivesRightmost g.rules ids [g.start] w) (hw : ∀ s ∈ w, s ∈ t.terminals) :
    t.parser.Accepts w ids.reverse := by
  obtain ⟨⟨stack, input⟩, hc, hruns⟩ := exists_parsed ht hfree (.refl [g.start]) h hw
  have hall : Parsed g t ([g.start] ++ []) ⟨stack, input⟩ := hc
  obtain ⟨x, hsymbols, hinput⟩ := hall.exists_eq_append .nil
  rw [List.append_nil] at hinput
  obtain rfl : input = x := hinput
  rcases List.append_eq_singleton_iff.1 hsymbols with ⟨-, rfl⟩ | ⟨hstack, rfl⟩
  · have hterminal := ht.isTerminal g.start (hc.mem_terminals g.start List.mem_cons_self)
    obtain ⟨name, hname⟩ := g.start_eq
    simp [hname, Symbol.isTerminal] at hterminal
  · exact ⟨_, hruns, action?_eq_accept ht hfree hc.isStack hstack⟩

end TableSource

/-! ## The parser of a grammar -/

namespace Grammar

theorem isSourceOf_tableSource (g : Grammar) (h : g.IsContextFree) (options : TableOptions) :
    TableSource.IsSourceOf (g.augmented h) { g.tableSource h with options := options } where
  automaton_eq := rfl
  isClosed := ⟨g.firstTable, FirstTable.isClosed_ofProductions g.productions,
    FollowTable.isClosed_ofProductions g.productions g.nonterminals g.start g.firstTable⟩
  eof_mem := FollowTable.eof_mem_ofProductions g.productions g.nonterminals g.start g.firstTable
  isTerminal := g.sound.isTerminal

theorem Generates.mem_terminals {g : Grammar} (h : g.Generates w) : ∀ s ∈ w, s ∈ g.terminals :=
  fun s hs => mem_terminals_of_derives_start h.2 hs (h.1 s hs)

end Grammar

namespace Parser

/-- **A parser whose table was not refused accepts every generated word**, with the productions of
    a rightmost derivation read backwards and with no others. -/
theorem exists_accepts_of_generates {g : Grammar} {a : Automaton} {table : ActionTable} {w : Word}
    (ha : g.answer Session.automaton = .ok a) (htable : g.answer Session.actionTable = .ok table)
    (hreject : g.options.onConflict = .reject) (hw : g.Generates w) :
    ∃ ids, Parser.Accepts ⟨a, table⟩ w ids ∧
      DerivesRightmost g.productions ids.reverse [g.start] w ∧
      ∀ ids', Parser.Accepts ⟨a, table⟩ w ids' → ids' = ids := by
  obtain ⟨h, rfl⟩ := Grammar.answer_automaton_eq_ok_iff.1 ha
  obtain ⟨_, hbuild⟩ := Grammar.answer_actionTable_eq_ok_iff.1 htable
  have hreject : (g.tableSource h).options.onConflict = .reject := hreject
  obtain ⟨hfree, rfl⟩ := (ActionTable.build_reject_eq_ok_iff hreject).1 hbuild
  obtain ⟨ids, hids⟩ := exists_derivesRightmost hw.2 hw.1
  have haccepts : (g.tableSource h).parser.Accepts w ids.reverse :=
    TableSource.accepts_of_derivesRightmost (g.isSourceOf_tableSource h g.options) hfree hids
      hw.mem_terminals
  refine ⟨ids.reverse, haccepts, ?_, ?_⟩
  · rw [List.reverse_reverse]
    exact hids
  · intro ids' haccepts'
    exact haccepts'.unique haccepts

end Parser

theorem Grammar.build_brackets : ActionTable.build (brackets.tableSource isContextFree_brackets) =
    .ok (.tabulate (brackets.tableSource isContextFree_brackets)) := by
  refine (ActionTable.build_reject_eq_ok_iff rfl).2 ⟨?_, rfl⟩
  rw [TableSource.isConflictFree_iff]
  decide +kernel

theorem Grammar.generates_brackets : brackets.Generates [.terminal "a", .terminal "b"] := by
  refine ⟨by decide, ?_⟩
  have hfirst : Yields brackets.productions [.nonterminal "S"]
      [.terminal "a", .nonterminal "S", .terminal "b"] :=
    ⟨brackets.productions[0], by simp, .nonterminal "S", rfl, [], [], rfl, rfl⟩
  have hsecond : Yields brackets.productions [.terminal "a", .nonterminal "S", .terminal "b"]
      [.terminal "a", .terminal "b"] :=
    ⟨brackets.productions[1], by simp, .nonterminal "S", rfl, [.terminal "a"], [.terminal "b"],
      rfl, rfl⟩
  exact .tail (.single hfirst) hsecond

theorem Parser.exists_accepts_brackets :
    Grammar.brackets.options.onConflict = .reject ∧
      Grammar.brackets.Generates [.terminal "a", .terminal "b"] ∧
      ∃ ids, (Grammar.brackets.tableSource Grammar.isContextFree_brackets).parser.Accepts
          [.terminal "a", .terminal "b"] ids ∧
        DerivesRightmost Grammar.brackets.productions ids.reverse [.nonterminal "S"]
          [.terminal "a", .terminal "b"] := by
  have ha : Grammar.brackets.answer Session.automaton =
      .ok (.ofGrammar (Grammar.brackets.augmented Grammar.isContextFree_brackets)) :=
    Grammar.answer_automaton_eq_ok_iff.2 ⟨Grammar.isContextFree_brackets, rfl⟩
  have htable : Grammar.brackets.answer Session.actionTable =
      .ok (.tabulate (Grammar.brackets.tableSource Grammar.isContextFree_brackets)) :=
    Grammar.answer_actionTable_eq_ok_iff.2 ⟨Grammar.isContextFree_brackets, Grammar.build_brackets⟩
  obtain ⟨ids, haccepts, hderives, -⟩ :=
    exists_accepts_of_generates ha htable rfl Grammar.generates_brackets
  exact ⟨rfl, Grammar.generates_brackets, ids, haccepts, hderives⟩

end ShiftReduce
