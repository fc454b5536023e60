import Mathlib.Data.Fintype.Pigeonhole
import Mathlib.Order.Interval.Finset.Nat
import ShiftReduce.Proofs.Parser.Completeness
import ShiftReduce.Proofs.Parser.Discipline
import ShiftReduce.Proofs.Parser.ValidPrefix

set_option autoImplicit false

/-! # Reductions come to an end

A reduction by an empty right side makes the stack higher and one by a single nonterminal leaves it
as high as it was, so no measure of the stack shows that a parser cannot reduce forever. What ends
the reductions is that a run which accepts is finite. When the words derived from the start symbol
can all be spelled out, every stack that comes up in reducing is completed by some terminals, and
with these as the input the parser makes all reductions that lead to the stack. There are only
finitely many first symbols that the completions can have, so one of them will do for all stacks:
reductions without an end are made on the way to accepting a word, too, which cannot be.

A nonterminal that derives no word of terminals breaks this, since a stack that waits for it may
have no completion.

**`Parser.not_isTrapped_of_accepts`**: no run on an accepted word leads to reductions without end.
**`Parser.not_isTrapped_of_runs`**: the same for every word of terminals, when everything that the
start symbol derives can be spelled out. -/

namespace ShiftReduce

namespace Parser

variable {P : Parser} {c d : Configuration} {w input : Word} {id : ProductionId}
  {ids ids' : List ProductionId}

/-! ## Reductions in a row -/

/-- The table asks for a reduction, and it leads to the other configuration. -/
def Reduces (P : Parser) (c d : Configuration) : Prop :=
  ∃ id, P.action? c = some (.reduce id) ∧ P.reduce? c id = some d

/-- Whether the parser can make reductions from here on without an end. -/
def IsTrapped (P : Parser) (c : Configuration) : Prop :=
  ∃ f : ℕ → Configuration, f 0 = c ∧ ∀ n, P.Reduces (f n) (f (n + 1))

/-- A reduction does not look at the input. -/
theorem reduce?_input (P : Parser) (c : Configuration) (id : ProductionId) (input : Word) :
    P.reduce? ⟨c.stack, input⟩ id = (P.reduce? c id).map fun d => ⟨d.stack, input⟩ := by
  unfold reduce?
  cases P.automaton.grammar.production? id with
  | none => rfl
  | some p =>
    cases hs : p.lhs? with
    | none => simp [hs]
    | some s =>
      simp only [Option.bind_eq_bind, Option.bind_some, hs]
      cases P.automaton.goto? (topState (c.stack.drop p.right.length)) s with
      | none => rfl
      | some target =>
        simp only [Option.bind_some]
        split <;> rfl

/-- Only the first symbol of the input matters for what is reduced. -/
theorem Reduces.of_lookahead (h : P.Reduces c d) (hinput : input.headD .eof = c.lookahead) :
    P.Reduces ⟨c.stack, input⟩ ⟨d.stack, input⟩ := by
  obtain ⟨id, haction, hmove⟩ := h
  refine ⟨id, ?_, ?_⟩
  · rw [← haction]
    unfold action? Configuration.lookahead
    rw [hinput]
    rfl
  · rw [reduce?_input, hmove, Option.map_some]

/-- A reduction is the next move. -/
theorem Reduces.next?_eq (h : P.Reduces c d) : P.next? c = some d := by
  obtain ⟨id, haction, hmove⟩ := h
  rw [next?, haction]
  exact hmove

theorem Reduces.after_succ {n : Nat} (h : P.Reduces (P.after c n).2 d) :
    (P.after c (n + 1)).2 = d := by
  rw [after, h.next?_eq]

/-- **No run on an accepted word leads to reductions without end**, since it is a part of the run
    that ends with acceptance. -/
theorem not_isTrapped_of_accepts (h : P.Accepts w ids) (hruns : P.Runs ⟨[], w⟩ ids' c) :
    ¬P.IsTrapped c := by
  rintro ⟨f, rfl, hf⟩
  obtain ⟨last, hlast, haccept⟩ := h
  obtain ⟨n, hn⟩ := hlast.exists_after
  obtain ⟨k, hk⟩ := hruns.exists_after
  have hpasses : ∀ j, (P.after ⟨[], w⟩ (k + j)).2 = f j := by
    intro j
    induction j with
    | zero => rw [Nat.add_zero, hk]
    | succ j ih => exact Reduces.after_succ (ih ▸ hf j)
  -- After enough moves the run has both ended and not ended.
  have hend : P.next? (P.after ⟨[], w⟩ n).2 = none := by
    rw [hn]
    exact next?_eq_none_of_accept haccept
  have hnext := (hf n).next?_eq
  rw [← hpasses n, Nat.add_comm, after_add hend, hend] at hnext
  simp at hnext

/-- Without a trap the reductions come to where the table asks for none. -/
theorem exists_reduces_of_not_isTrapped (h : ¬P.IsTrapped c)
    (hmove : ∀ d, Relation.ReflTransGen P.Reduces c d → ∀ id,
      P.action? d = some (.reduce id) → ∃ e, P.Reduces d e) :
    ∃ d, Relation.ReflTransGen P.Reduces c d ∧ ∀ id, P.action? d ≠ some (.reduce id) := by
  by_contra hnone
  push Not at hnone
  have hstep : ∀ d, Relation.ReflTransGen P.Reduces c d → ∃ e, P.Reduces d e := by
    intro d hd
    obtain ⟨id, haction⟩ := hnone d hd
    exact hmove d hd id haction
  have hreach : ∀ n, Relation.ReflTransGen P.Reduces c (P.after c n).2 := by
    intro n
    induction n with
    | zero => exact .refl
    | succ n ih =>
      obtain ⟨e, he⟩ := hstep _ ih
      exact ih.tail (he.after_succ.symm ▸ he)
  refine h ⟨fun n => (P.after c n).2, rfl, fun n => ?_⟩
  obtain ⟨e, he⟩ := hstep _ (hreach n)
  show P.Reduces (P.after c n).2 (P.after c (n + 1)).2
  rw [he.after_succ]
  exact he

end Parser

namespace TableSource

variable {g : AugmentedGrammar} {t : TableSource} {c d : Configuration} {w z : Word}
  {ids : List ProductionId} {f : ℕ → Configuration}

/-! ## Completions -/

/-- The terminals of derived words can be looked up in the table. -/
def HasTerminals (t : TableSource) (g : AugmentedGrammar) : Prop :=
  ∀ v, Derives g.rules [g.start] v → ∀ s ∈ v, s.isTerminal = true → s ∈ t.terminals

theorem isStack_of_reduces (ht : t.automaton = .ofGrammar g) (hc : IsStack (.ofGrammar g) c.stack)
    (h : t.parser.Reduces c d) : IsStack (.ofGrammar g) d.stack := by
  obtain ⟨id, haction, hmove⟩ := h
  rw [← ht] at hc ⊢
  exact (reduce_spec ht hc haction hmove).1

/-- A reduction that the table asks for can be made. -/
theorem exists_reduces (ht : t.automaton = .ofGrammar g) (hc : IsStack (.ofGrammar g) c.stack)
    {id : ProductionId} (haction : t.parser.action? c = some (.reduce id)) :
    ∃ d, t.parser.Reduces c d := by
  obtain ⟨d, hd⟩ := exists_next? ht (ht ▸ hc) haction (by simp)
  rw [Parser.next?, haction] at hd
  exact ⟨d, id, haction, hd⟩

/-- A reduction is a step of a rightmost derivation backwards, whatever terminals come after the
    stack. -/
theorem yieldsRightmost_of_reduces (ht : t.automaton = .ofGrammar g)
    (hc : IsStack (.ofGrammar g) c.stack) (h : t.parser.Reduces c d) (hz : z.IsTerminal) :
    ∃ id, YieldsRightmost g.rules id (d.symbols ++ z) (c.symbols ++ z) := by
  obtain ⟨id, haction, hmove⟩ := h
  obtain ⟨-, -, p, s, u, hp, hs, hbefore, hafter⟩ := reduce_spec ht (ht ▸ hc) haction hmove
  refine ⟨id, p, hp, s, hs, u, z, hz, ?_, ?_⟩
  · rw [hafter, List.append_assoc, List.singleton_append]
  · rw [hbefore]

/-- What completes the stack after a reduction makes the parser reduce. -/
theorem reduces_of_derivesRightmost (ht : t.IsSourceOf g) (hfree : t.IsConflictFree)
    (hc : IsStack (.ofGrammar g) c.stack) (h : t.parser.Reduces c d)
    (hz : ∀ x ∈ z, x ∈ t.terminals)
    (hder : DerivesRightmost g.rules ids [g.start] (d.symbols ++ z)) :
    t.parser.Reduces ⟨c.stack, z⟩ ⟨d.stack, z⟩ := by
  obtain ⟨id, haction, hmove⟩ := h
  obtain ⟨-, -, p, s, u, hp, hs, hbefore, hafter⟩ :=
    reduce_spec ht.automaton_eq (ht.automaton_eq ▸ hc) haction hmove
  rw [hafter, List.append_assoc, List.singleton_append] at hder
  refine ⟨id, action?_eq_reduce ht hfree hc hp hs hbefore hz hder, ?_⟩
  rw [Parser.reduce?_input, hmove, Option.map_some]

/-- Some terminals complete the stack. -/
theorem exists_completion (hg : g.IsProductive) (hc : IsStack (.ofGrammar g) c.stack) :
    ∃ z ids, Word.IsTerminal z ∧ DerivesRightmost g.rules ids [g.start] (c.symbols ++ z) := by
  obtain ⟨st, -, hreached⟩ := hc.exists_state?
  obtain ⟨i, hi⟩ := ItemSet.exists_mem_of_reached? hreached
  exact (isValidFor_of_mem_reached? hg hreached hi).exists_derivesRightmost hg

section

variable (ht : t.IsSourceOf g) (hc : IsStack (.ofGrammar g) (f 0).stack)
  (hf : ∀ n, t.parser.Reduces (f n) (f (n + 1)))

include ht hc hf

theorem isStack_of_forall_reduces (n : ℕ) : IsStack (.ofGrammar g) (f n).stack := by
  induction n with
  | zero => exact hc
  | succ n ih => exact isStack_of_reduces ht.automaton_eq ih (hf n)

/-- What completes a stack completes the stacks before it. -/
theorem exists_derivesRightmost_of_le (hz : z.IsTerminal) {m n : ℕ} (hle : m ≤ n)
    (hder : DerivesRightmost g.rules ids [g.start] ((f n).symbols ++ z)) :
    ∃ ids', DerivesRightmost g.rules ids' [g.start] ((f m).symbols ++ z) := by
  induction n, hle using Nat.le_induction generalizing ids with
  | base => exact ⟨ids, hder⟩
  | succ n _ ih =>
    have hstack := isStack_of_forall_reduces ht hc hf n
    obtain ⟨id, hstep⟩ := yieldsRightmost_of_reduces ht.automaton_eq hstack (hf n) hz
    exact ih (hder.trans (.single hstep))

/-- There are infinitely many stacks and finitely many lookaheads, so a completion of one stack has
    the lookahead that completions of arbitrarily late stacks have. -/
theorem exists_forall_reduces (hfree : t.IsConflictFree) (hg : g.IsProductive)
    (hterminals : t.HasTerminals g) :
    ∃ z ids, (∀ x ∈ z, x ∈ t.terminals) ∧
      DerivesRightmost g.rules ids [g.start] ((f 1).symbols ++ z) ∧
      ∀ n, t.parser.Reduces ⟨(f n).stack, z⟩ ⟨(f (n + 1)).stack, z⟩ := by
  have hstack := isStack_of_forall_reduces ht hc hf
  choose z ids hz hder using fun n => exists_completion hg (hstack n)
  have hmem : ∀ n, ∀ x ∈ z n, x ∈ t.terminals := by
    intro n x hx
    exact hterminals _ (hder n).derives x (List.mem_append_right _ hx) (hz n x hx)
  have hlookahead : ∀ n, (z n).headD .eof ∈ t.lookaheads := by
    intro n
    refine mem_lookaheads_iff.2 ?_
    cases hzn : z n with
    | nil => exact Or.inl rfl
    | cons x rest => exact Or.inr (hmem n x (hzn ▸ List.mem_cons_self))
  obtain ⟨x, hx⟩ := Finite.exists_infinite_fiber
    fun n => (⟨(z n).headD .eof, hlookahead n⟩ : { x // x ∈ t.lookaheads })
  have hlate := fun n => Set.Infinite.exists_gt (Set.infinite_coe_iff.1 hx) n
  obtain ⟨k, hk, hpos⟩ := hlate 0
  obtain ⟨ids', hfirst⟩ := exists_derivesRightmost_of_le ht hc hf (hz k) hpos (hder k)
  refine ⟨z k, ids', hmem k, hfirst, fun n => ?_⟩
  obtain ⟨m, hm, hlt⟩ := hlate n
  obtain ⟨ids'', hnext⟩ := exists_derivesRightmost_of_le ht hc hf (hz m) hlt (hder m)
  have hreduces := reduces_of_derivesRightmost ht hfree (hstack n) (hf n) (hmem m) hnext
  have heq : (z k).headD .eof = (z m).headD .eof :=
    congrArg Subtype.val (hk.trans hm.symm)
  exact hreduces.of_lookahead heq

end

/-! ## The run through a stack -/

/-- The run on a word that the stack and its completion spell comes to the stack, when the last
    symbol there is a nonterminal. -/
theorem exists_runs_of_isStack (ht : t.IsSourceOf g) (hfree : t.IsConflictFree)
    (hc : IsStack (.ofGrammar g) c.stack) {before : Word} {s : Symbol}
    (hlast : c.symbols = before ++ [s]) (hs : s.isNonterminal = true) {u : Word}
    (hu : Spells g.rules c.symbols u)
    (hder : DerivesRightmost g.rules ids [g.start] (c.symbols ++ z))
    (hmem : ∀ x ∈ u ++ z, x ∈ t.terminals) :
    ∃ ids', t.parser.Runs ⟨[], u ++ z⟩ ids' ⟨c.stack, z⟩ := by
  have hz : z.IsTerminal := fun x hx => ht.isTerminal x (hmem x (List.mem_append_right u hx))
  obtain ⟨ids', hids'⟩ := hu.exists_derivesRightmost
  have hall : DerivesRightmost g.rules ids' (c.symbols ++ z) (u ++ z) := by
    simpa using hids'.context [] hz
  obtain ⟨⟨stack, input⟩, hparsed, hruns⟩ := exists_parsed ht hfree hder hall hmem
  obtain ⟨x, hsymbols, rfl : input = x ++ z⟩ := hparsed.exists_eq_append hz
  -- The nonterminal is not in the input, so nothing of the symbols is.
  have hnil : x = [] := by
    cases x using List.reverseRecOn with
    | nil => rfl
    | append_singleton x s' =>
      rw [hlast, ← List.append_assoc] at hsymbols
      obtain rfl := List.singleton_inj.1 (List.append_inj' hsymbols rfl).2
      have hterminal := ht.isTerminal s' (hparsed.mem_terminals s' (by simp))
      rw [Symbol.isNonterminal_of_isTerminal hterminal] at hs
      simp at hs
  subst hnil
  rw [List.append_nil] at hsymbols
  obtain rfl : stack = c.stack := hparsed.isStack.eq_of_symbolsOn hc hsymbols
  exact ⟨_, hruns⟩

/-- Reductions without end would be made on the way to accepting some other word. -/
theorem not_isTrapped_of_reached (ht : t.IsSourceOf g) (hfree : t.IsConflictFree)
    (hg : g.IsProductive) (hterminals : t.HasTerminals g) (hw : w.IsTerminal)
    (hc : Reached g ⟨[], w⟩ ids c) : ¬t.parser.IsTrapped c := by
  rintro ⟨f, rfl, hf⟩
  obtain ⟨z, ids', hz, hder, hreduces⟩ :=
    exists_forall_reduces ht hc.isStack hf hfree hg hterminals
  obtain ⟨id, haction, hmove⟩ := hf 0
  have hfirst := hc.reduce ht.automaton_eq haction hmove
  obtain ⟨-, -, p, s, before, -, hs, -, hlast⟩ :=
    reduce_spec ht.automaton_eq (ht.automaton_eq ▸ hc.isStack) haction hmove
  obtain ⟨u, -, hu⟩ := hfirst.exists_spells hw
  have hzTerminal : z.IsTerminal := fun x hx => ht.isTerminal x (hz x hx)
  have hword : Derives g.rules [g.start] (u ++ z) :=
    hder.derives.trans (hu.derives.append .refl)
  have hterminal := Word.isTerminal_append_iff.2 ⟨hu.isTerminal, hzTerminal⟩
  have hmem : ∀ x ∈ u ++ z, x ∈ t.terminals :=
    fun x hx => hterminals _ hword x hx (hterminal x hx)
  obtain ⟨ids'', hids''⟩ := exists_derivesRightmost hword hterminal
  obtain ⟨_, hruns⟩ := exists_runs_of_isStack ht hfree hfirst.isStack hlast
    (Production.isNonterminal_of_lhs? hs) hu hder hmem
  exact Parser.not_isTrapped_of_accepts (accepts_of_derivesRightmost ht hfree hids'' hmem) hruns
    ⟨fun n => ⟨(f (n + 1)).stack, z⟩, rfl, fun n => hreduces (n + 1)⟩

end TableSource

/-! ## The parser of a grammar -/

namespace Grammar

theorem hasTerminals_tableSource (g : Grammar) (h : g.IsContextFree) :
    (g.tableSource h).HasTerminals (g.augmented h) :=
  fun _ hv _ hs hterminal => mem_terminals_of_derives_start hv hs hterminal

end Grammar

namespace Parser

/-- **Reductions come to an end** in every configuration of every run of a parser whose table was
    not refused, on the words that the grammar generates, and on all words of terminals when every
    nonterminal in a word derived from the start symbol derives some word of terminals. After them
    the table asks for a shift, accepts or has no action. -/
theorem not_isTrapped_of_runs {g : Grammar} {a : Automaton} {table : ActionTable} {w : Word}
    {ids : List ProductionId} {c : Configuration} (ha : g.answer Session.automaton = .ok a)
    (htable : g.answer Session.actionTable = .ok table) (hreject : g.options.onConflict = .reject)
    (hg : g.Generates w ∨ g.IsProductiveFromStart) (hw : w.IsTerminal)
    (hruns : Parser.Runs ⟨a, table⟩ ⟨[], w⟩ ids c) :
    ¬Parser.IsTrapped ⟨a, table⟩ c ∧
      ∃ d, Relation.ReflTransGen (Parser.Reduces ⟨a, table⟩) c d ∧
        ∀ id, Parser.action? ⟨a, table⟩ d ≠ some (.reduce id) := by
  obtain ⟨h, rfl⟩ := Grammar.answer_automaton_eq_ok_iff.1 ha
  obtain ⟨_, hbuild⟩ := Grammar.answer_actionTable_eq_ok_iff.1 htable
  have hreject : (g.tableSource h).options.onConflict = .reject := hreject
  obtain ⟨hfree, rfl⟩ := (ActionTable.build_reject_eq_ok_iff hreject).1 hbuild
  have hsource := g.isSourceOf_tableSource h g.options
  have hreached : TableSource.Reached (g.augmented h) ⟨[], w⟩ ids c :=
    TableSource.reached_of_runs (t := g.tableSource h) rfl trivial hw hruns
  have hfinite : ¬(g.tableSource h).parser.IsTrapped c := by
    rcases hg with hgenerates | hproductive
    · obtain ⟨ids', hids'⟩ := exists_derivesRightmost hgenerates.2 hw
      have haccepts := TableSource.accepts_of_derivesRightmost hsource hfree hids'
        hgenerates.mem_terminals
      exact not_isTrapped_of_accepts haccepts hruns
    · exact TableSource.not_isTrapped_of_reached hsource hfree (hproductive.augmented h)
        (g.hasTerminals_tableSource h) hw hreached
  refine ⟨hfinite, exists_reduces_of_not_isTrapped hfinite ?_⟩
  intro d hd id haction
  refine TableSource.exists_reduces (t := g.tableSource h) rfl ?_ haction
  clear haction
  induction hd with
  | refl => exact hreached.isStack
  | tail _ hstep ih => exact TableSource.isStack_of_reduces (t := g.tableSource h) rfl ih hstep

/-- The word `aab` is not generated. The empty word is reduced before `b`, and the reductions end
    there. -/
theorem not_isTrapped_brackets :
    Grammar.brackets.options.onConflict = .reject ∧ Grammar.brackets.IsProductiveFromStart ∧
      ∃ ids c, (Grammar.brackets.tableSource Grammar.isContextFree_brackets).parser.Runs
          ⟨[], [.terminal "a", .terminal "a", .terminal "b"]⟩ ids c ∧
        (Grammar.brackets.tableSource Grammar.isContextFree_brackets).parser.action? c =
          some (.reduce 1) ∧
        ¬(Grammar.brackets.tableSource Grammar.isContextFree_brackets).parser.IsTrapped c := by
  let source := Grammar.brackets.tableSource Grammar.isContextFree_brackets
  have ha : Grammar.brackets.answer Session.automaton = .ok source.automaton :=
    Grammar.answer_automaton_eq_ok_iff.2 ⟨Grammar.isContextFree_brackets, rfl⟩
  have htable : Grammar.brackets.answer Session.actionTable = .ok (.tabulate source) :=
    Grammar.answer_actionTable_eq_ok_iff.2
      ⟨Grammar.isContextFree_brackets, Grammar.build_brackets⟩
  have hruns := source.parser.runs_after ⟨[], [.terminal "a", .terminal "a", .terminal "b"]⟩ 2
  have hproductive := Grammar.isProductive_brackets.fromStart
  obtain ⟨hfinite, -⟩ :=
    not_isTrapped_of_runs ha htable rfl (Or.inr hproductive) (by decide) hruns
  exact ⟨rfl, hproductive, _, _, hruns, by decide +kernel, hfinite⟩

end Parser

/-! ## A stack without completion -/

namespace Grammar

/-- Whether the table refuses conflicts and is not refused, and still a run on the word leads to
    reductions without end. -/
def HasTrap (g : Grammar) (w : Word) : Prop :=
  g.options.onConflict = .reject ∧ ∃ a table, g.answer Session.automaton = .ok a ∧
    g.answer Session.actionTable = .ok table ∧ ∃ ids c,
      Parser.Runs ⟨a, table⟩ ⟨[], w⟩ ids c ∧ Parser.IsTrapped ⟨a, table⟩ c

/-- Nothing but `yx` is generated, since `U` derives no word of terminals. A word derived from `U`
    can begin with any number of `A`, which are empty. -/
def hollow (reduceOnAnyEof : Bool) : Grammar where
  terminals := .ofList ([.terminal "x", .terminal "y"] : Word)
  nonterminals := .ofList ([.nonterminal "A", .nonterminal "S", .nonterminal "U"] : Word)
  productions := [
    ⟨[.nonterminal "S"], [.nonterminal "U"], .contextFree, by decide⟩,
    ⟨[.nonterminal "S"], [.terminal "y", .nonterminal "A", .terminal "x"], .contextFree,
      by decide⟩,
    ⟨[.nonterminal "U"], [.nonterminal "A", .nonterminal "U"], .contextFree, by decide⟩,
    ⟨[.nonterminal "A"], [], .contextFree, by decide⟩]
  start := .nonterminal "S"
  options := ⟨.reject, reduceOnAnyEof⟩
  sound := Parts.fault?_eq_none_iff.1 (by cases reduceOnAnyEof <;> decide +kernel)
  distinct := by decide

theorem isContextFree_hollow (b : Bool) : (hollow b).IsContextFree := by
  cases b <;> decide +kernel

/-- What the table is built from, with the automaton after eight rounds of the exploration. -/
def hollowSource (b : Bool) : TableSource :=
  let g := (hollow b).augmented (isContextFree_hollow b)
  { automaton := ⟨g, ((Exploration.loop g).after 8 (.initial g)).states⟩
    follow := (hollow b).followTable
    terminals := (hollow b).terminals
    options := ⟨.reject, b⟩ }

theorem tableSource_hollow (b : Bool) :
    (hollow b).tableSource (isContextFree_hollow b) = hollowSource b := by
  let g := (hollow b).augmented (isContextFree_hollow b)
  have hrounds : (Exploration.loop g).next ((Exploration.loop g).after 8 (.initial g)) = none := by
    rw [← Option.isNone_iff_eq_none]
    cases b <;> decide +kernel
  rw [tableSource, Automaton.ofGrammar_eq hrounds]
  rfl

theorem build_hollow (b : Bool) :
    ActionTable.build (hollowSource b) = .ok (.tabulate (hollowSource b)) := by
  refine (ActionTable.build_reject_eq_ok_iff rfl).2 ⟨?_, rfl⟩
  rw [TableSource.isConflictFree_iff]
  cases b <;> decide +kernel

/-- Before `x` the empty `A` is reduced in the initial state and in the state after `A`, where `A`
    leads both times. -/
theorem reduces_hollow (b : Bool) (n : ℕ) : (hollowSource b).parser.Reduces
    ⟨.replicate n ⟨.nonterminal "A", 3⟩, [.terminal "x"]⟩
    ⟨.replicate (n + 1) ⟨.nonterminal "A", 3⟩, [.terminal "x"]⟩ := by
  have hcells : ∀ id ∈ [0, 3],
      (ActionTable.tabulate (hollowSource b)).action? id (.terminal "x") =
          .ok (some (.reduce 3)) ∧
        (hollowSource b).automaton.goto? id (.nonterminal "A") = some 3 := by
    cases b <;> decide +kernel
  have htop : topState (.replicate n ⟨.nonterminal "A", 3⟩) ∈ [0, 3] := by
    cases n with
    | zero => exact List.mem_cons_self
    | succ n => exact List.mem_cons_of_mem 0 List.mem_cons_self
  obtain ⟨haction, hgoto⟩ := hcells _ htop
  refine ⟨3, ?_, ?_⟩
  · unfold Parser.action?
    simp only [TableSource.parser, Configuration.lookahead, List.headD_cons]
    rw [haction]
  · have hautomaton : (hollowSource b).automaton = .ofGrammar _ :=
      congrArg TableSource.automaton (tableSource_hollow b).symm
    have hp : ((hollow b).augmented (isContextFree_hollow b)).production? 3 =
        some ⟨[.nonterminal "A"], [], .contextFree, by decide⟩ := rfl
    exact TableSource.reduce?_eq_some hautomaton hp rfl (Nat.zero_le _) hgoto

/-- The word `x` is not generated, and the parser never finds out. -/
theorem hasTrap_hollow (b : Bool) : (hollow b).HasTrap [.terminal "x"] := by
  have hsource := tableSource_hollow b
  have ha : (hollow b).answer Session.automaton = .ok (hollowSource b).automaton :=
    answer_automaton_eq_ok_iff.2
      ⟨isContextFree_hollow b, congrArg TableSource.automaton hsource.symm⟩
  have htable : (hollow b).answer Session.actionTable = .ok (.tabulate (hollowSource b)) :=
    answer_actionTable_eq_ok_iff.2 ⟨isContextFree_hollow b, hsource ▸ build_hollow b⟩
  exact ⟨rfl, _, _, ha, htable, _, _, .refl _, _, rfl, reduces_hollow b⟩

/-- Reductions without end, whether or not every reduction is made at the end of the input. -/
theorem hasTrap_hollow_options :
    Word.IsTerminal [.terminal "x"] ∧ (hollow true).HasTrap [.terminal "x"] ∧
      (hollow false).HasTrap [.terminal "x"] :=
  ⟨by decide, hasTrap_hollow true, hasTrap_hollow false⟩

end Grammar

end ShiftReduce
