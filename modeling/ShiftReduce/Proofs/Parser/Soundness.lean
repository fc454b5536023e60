import ShiftReduce.Proofs.Derivation.Rightmost
import ShiftReduce.Proofs.Parser.Run
import ShiftReduce.Proofs.Parser.Stack
import ShiftReduce.Proofs.Session.Coherent

set_option autoImplicit false

/-! # Soundness of the tables

A reduction is a step of a rightmost derivation read backwards: the symbols on the stack and the
input left form a word, a shift does not change this word, and a reduction by a rule undoes a step
with that rule, since only terminals come after what it replaces. This needs no more of a table than
that its actions are candidates, so it holds for tables with conflicts, too.

**`Parser.derivesRightmost_of_accepts`**: what a parser accepts is generated by the grammar, and its
reductions are a rightmost derivation read backwards. -/

namespace ShiftReduce

variable {g : AugmentedGrammar} {t : TableSource} {c d : Configuration} {ids : List ProductionId}

/-- At the end of the input nothing of it is left, since the end is no terminal. -/
theorem Configuration.input_eq_nil (h : c.lookahead = .eof)
    (hinput : c.input.IsTerminal) : c.input = [] := by
  cases hrest : c.input with
  | nil => rfl
  | cons s rest =>
    have hs := hinput s (hrest ▸ List.mem_cons_self)
    rw [Configuration.lookahead, hrest, List.headD_cons] at h
    rw [h] at hs
    simp [Symbol.isTerminal] at hs

namespace TableSource

/-- What a run keeps, from the configuration `c` on: the stack, what is left of the input, and a
    rightmost derivation of the word that it started with. -/
structure Reached (g : AugmentedGrammar) (c : Configuration) (ids : List ProductionId)
    (d : Configuration) : Prop where
  isStack : IsStack (.ofGrammar g) d.stack
  isTerminal : d.input.IsTerminal
  derives : DerivesRightmost g.rules ids.reverse d.word c.word

theorem Reached.shift {e : Configuration} {target : StateId} (ht : t.automaton = .ofGrammar g)
    (h : Reached g c ids d) (haction : t.parser.action? d = some (.shift target))
    (hmove : Parser.shift? d target = some e) : Reached g c ids e := by
  obtain ⟨hstack, s, hinput, hsymbols⟩ := shift_spec (ht ▸ h.isStack) haction hmove
  have hword : e.word = d.word := by
    rw [Configuration.word, Configuration.word, hinput, hsymbols, List.append_assoc,
      List.singleton_append]
  have hterminal := h.isTerminal
  rw [hinput, Word.isTerminal_cons_iff] at hterminal
  refine ⟨ht ▸ hstack, hterminal.2, ?_⟩
  rw [hword]
  exact h.derives

theorem Reached.reduce {e : Configuration} {id : ProductionId} (ht : t.automaton = .ofGrammar g)
    (h : Reached g c ids d) (haction : t.parser.action? d = some (.reduce id))
    (hmove : t.parser.reduce? d id = some e) : Reached g c (ids ++ [id]) e := by
  obtain ⟨hstack, hinput, p, s, u, hp, hs, hbefore, hafter⟩ :=
    reduce_spec ht (ht ▸ h.isStack) haction hmove
  have hstep : YieldsRightmost g.rules id e.word d.word := by
    refine ⟨p, hp, s, hs, u, d.input, h.isTerminal, ?_, ?_⟩
    · rw [Configuration.word, hafter, hinput, List.append_assoc, List.singleton_append]
    · rw [Configuration.word, hbefore]
  refine ⟨ht ▸ hstack, hinput ▸ h.isTerminal, ?_⟩
  rw [List.reverse_concat]
  exact .head hstep h.derives

/-- Every run keeps it. -/
theorem reached_of_runs (ht : t.automaton = .ofGrammar g) (hstack : IsStack (.ofGrammar g) c.stack)
    (hinput : c.input.IsTerminal) (h : t.parser.Runs c ids d) : Reached g c ids d := by
  induction h with
  | refl => exact ⟨hstack, hinput, .refl c.word⟩
  | shift _ haction hmove ih => exact ih.shift ht haction hmove
  | reduce _ haction hmove ih => exact ih.reduce ht haction hmove

theorem derivesRightmost_start_of_accepts {w : Word} (ht : t.automaton = .ofGrammar g)
    (hw : w.IsTerminal) (h : t.parser.Accepts w ids) :
    DerivesRightmost g.rules ids.reverse [g.start] w := by
  obtain ⟨c, hruns, haccept⟩ := h
  have hreached : Reached g ⟨[], w⟩ ids c := reached_of_runs ht trivial hw hruns
  obtain ⟨heof, hsymbols⟩ := accept_spec ht (ht ▸ hreached.isStack) haccept
  have hinput := Configuration.input_eq_nil heof hreached.isTerminal
  have hderives := hreached.derives
  rw [Configuration.word, hsymbols, hinput] at hderives
  exact hderives

end TableSource

namespace Parser

/-- **What a parser accepts is generated by the grammar**, and the reductions of the run, read
    backwards, are a rightmost derivation of the input. -/
theorem derivesRightmost_of_accepts {g : Grammar} {a : Automaton} {table : ActionTable} {w : Word}
    {ids : List ProductionId} (ha : g.answer Session.automaton = .ok a)
    (htable : g.answer Session.actionTable = .ok table) (hw : ∀ s ∈ w, s ∈ g.terminals)
    (haccepts : Parser.Accepts ⟨a, table⟩ w ids) :
    g.Generates w ∧ DerivesRightmost g.productions ids.reverse [g.start] w := by
  obtain ⟨h, rfl⟩ := Grammar.answer_automaton_eq_ok_iff.1 ha
  obtain ⟨_, hbuild⟩ := Grammar.answer_actionTable_eq_ok_iff.1 htable
  obtain rfl := ActionTable.eq_tabulate_of_build hbuild
  have hterminal : w.IsTerminal := fun s hs => g.sound.isTerminal s (hw s hs)
  have hderives : DerivesRightmost g.productions ids.reverse [g.start] w :=
    TableSource.derivesRightmost_start_of_accepts (t := g.tableSource h) rfl hterminal haccepts
  exact ⟨⟨hterminal, hderives.derives⟩, hderives⟩

end Parser

/-! ## An ambiguous grammar -/

namespace Grammar

/-- Sequences that may be split anywhere, so its table has conflicts, which are tolerated. -/
def sequences : Grammar where
  terminals := .ofList ([.terminal "a"] : Word)
  nonterminals := .ofList ([.nonterminal "S"] : Word)
  productions := [
    ⟨[.nonterminal "S"], [.nonterminal "S", .nonterminal "S"], .contextFree, by decide⟩,
    ⟨[.nonterminal "S"], [.terminal "a"], .contextFree, by decide⟩]
  start := .nonterminal "S"
  options := .lenient
  sound := Parts.fault?_eq_none_iff.1 (by decide +kernel)
  distinct := by decide

theorem isContextFree_sequences : sequences.IsContextFree := by decide +kernel

theorem build_sequences : ActionTable.build (sequences.tableSource isContextFree_sequences) =
    .ok (.tabulate (sequences.tableSource isContextFree_sequences)) := by
  refine if_neg ?_
  rintro ⟨-, hreject⟩
  exact absurd hreject (by decide)

end Grammar

theorem Parser.derivesRightmost_sequences :
    (ActionTable.tabulate (Grammar.sequences.tableSource Grammar.isContextFree_sequences)).conflicts
        ≠ [] ∧
      (Grammar.sequences.tableSource Grammar.isContextFree_sequences).parser.Accepts
        [.terminal "a", .terminal "a"] [1, 1, 0] ∧
      Grammar.sequences.Generates [.terminal "a", .terminal "a"] ∧
      DerivesRightmost Grammar.sequences.productions [0, 1, 1] [.nonterminal "S"]
        [.terminal "a", .terminal "a"] := by
  let source := Grammar.sequences.tableSource Grammar.isContextFree_sequences
  have ha : Grammar.sequences.answer Session.automaton = .ok source.automaton :=
    Grammar.answer_automaton_eq_ok_iff.2 ⟨Grammar.isContextFree_sequences, rfl⟩
  have htable : Grammar.sequences.answer Session.actionTable = .ok (.tabulate source) :=
    Grammar.answer_actionTable_eq_ok_iff.2
      ⟨Grammar.isContextFree_sequences, Grammar.build_sequences⟩
  have haccepts : source.parser.Accepts [.terminal "a", .terminal "a"] [1, 1, 0] := by
    have hids : (source.parser.after ⟨[], [.terminal "a", .terminal "a"]⟩ 5).1 = [1, 1, 0] := by
      decide +kernel
    rw [← hids]
    exact accepts_of_after (by decide +kernel)
  exact ⟨by decide +kernel, haccepts,
    derivesRightmost_of_accepts ha htable (by decide +kernel) haccepts⟩

end ShiftReduce
