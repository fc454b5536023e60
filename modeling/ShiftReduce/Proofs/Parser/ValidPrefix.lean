import ShiftReduce.Proofs.Automaton.ViablePrefix
import ShiftReduce.Proofs.Parser.Soundness

set_option autoImplicit false

/-! # What has been read can be completed

The symbols on the stack derive the part of the input that has been read, and they lead to a state
of the automaton. When every nonterminal derives some word of terminals, an item of this state is
valid for them: a derivation from the start symbol comes to a word that begins with them, and the
rest of that word can be spelled out. A reduction may be wrong for the input that is left, but it
never leads to a stack without such a derivation, so no symbol is shifted that cannot come next.

**`Item.IsValidFor.exists_spells_start`**: what a word with a valid item spells begins a word that
the start symbol spells.
**`Parser.exists_generates_of_runs`**: in every configuration of every run, what has been read begins
a generated word. -/

namespace ShiftReduce

variable {g : AugmentedGrammar} {t : TableSource} {c : Configuration} {ids : List ProductionId}
  {u v w : Word}

/-- In a derivation of the word only terminals come after it, and the word itself spells `u`. -/
theorem Item.IsValidFor.exists_spells_start {i : Item} (hg : g.IsProductive) (h : i.IsValidFor g v)
    (hu : Spells g.rules v u) : ∃ z, Spells g.rules [g.start] (u ++ z) := by
  obtain ⟨z, ids, hz, hids⟩ := h.exists_derivesRightmost hg
  refine ⟨z, .of_derives (hids.derives.trans (hu.derives.append .refl)) ?_⟩
  exact Word.isTerminal_append_iff.2 ⟨hu.isTerminal, hz⟩

namespace TableSource

/-- The symbols on the stack spell the input up to what is left of it. -/
theorem Reached.exists_spells (hw : w.IsTerminal) (h : Reached g ⟨[], w⟩ ids c) :
    ∃ u, w = u ++ c.input ∧ Spells g.rules c.symbols u := by
  have hword : Spells g.rules (c.symbols ++ c.input) w := .of_derives h.derives.derives hw
  obtain ⟨u, rest, rfl, hu, hrest⟩ := hword.exists_of_append
  exact ⟨u, by rw [hrest.eq_of_isTerminal h.isTerminal], hu⟩

/-- The items of the state on top of the stack are valid for the symbols on it. -/
theorem exists_spells_start_of_isStack (hg : g.IsProductive) (hc : IsStack (.ofGrammar g) c.stack)
    (hu : Spells g.rules c.symbols u) : ∃ z, Spells g.rules [g.start] (u ++ z) := by
  obtain ⟨st, -, hreached⟩ := hc.exists_state?
  obtain ⟨i, hi⟩ := ItemSet.exists_mem_of_reached? hreached
  exact (isValidFor_of_mem_reached? hg hreached hi).exists_spells_start hg hu

end TableSource

namespace Parser

/-- **A parser never reads a symbol that cannot come next**: when every nonterminal derives some word
    of terminals, what has been read begins a generated word, in every configuration of every run
    and whatever the options of the table are. -/
theorem exists_generates_of_runs {g : Grammar} {a : Automaton} {table : ActionTable} {w : Word}
    {ids : List ProductionId} {c : Configuration} (hg : g.IsProductive)
    (ha : g.answer Session.automaton = .ok a) (htable : g.answer Session.actionTable = .ok table)
    (hw : w.IsTerminal) (hruns : Parser.Runs ⟨a, table⟩ ⟨[], w⟩ ids c) :
    ∃ u, w = u ++ c.input ∧ ∃ z, g.Generates (u ++ z) := by
  obtain ⟨h, rfl⟩ := Grammar.answer_automaton_eq_ok_iff.1 ha
  obtain ⟨_, hbuild⟩ := Grammar.answer_actionTable_eq_ok_iff.1 htable
  obtain rfl := ActionTable.eq_tabulate_of_build hbuild
  have hreached : TableSource.Reached (g.augmented h) ⟨[], w⟩ ids c :=
    TableSource.reached_of_runs (t := g.tableSource h) rfl trivial hw hruns
  obtain ⟨u, hinput, hu⟩ := hreached.exists_spells hw
  obtain ⟨z, hz⟩ :=
    TableSource.exists_spells_start_of_isStack (hg.augmented h) hreached.isStack hu
  exact ⟨u, hinput, z, hz.isTerminal, hz.derives⟩

end Parser

/-! ## A reduction at the wrong end -/

namespace Grammar

/-- `A` is always followed by `x`, but it is reduced at the end of the input, too. -/
def guarded : Grammar where
  terminals := .ofList ([.terminal "x", .terminal "y"] : Word)
  nonterminals := .ofList ([.nonterminal "A", .nonterminal "S"] : Word)
  productions := [
    ⟨[.nonterminal "S"], [.nonterminal "A", .terminal "x"], .contextFree, by decide⟩,
    ⟨[.nonterminal "A"], [.terminal "y"], .contextFree, by decide⟩]
  start := .nonterminal "S"
  sound := Parts.fault?_eq_none_iff.1 (by decide +kernel)
  distinct := by decide

theorem isContextFree_guarded : guarded.IsContextFree := by decide +kernel

theorem isProductive_guarded : guarded.IsProductive := by
  have hA : Derives guarded.productions [.nonterminal "A"] [.terminal "y"] :=
    .of_lhs? (p := guarded.productions[1]) (by simp) rfl
  have hS : Derives guarded.productions [.nonterminal "S"] [.nonterminal "A", .terminal "x"] :=
    .of_lhs? (p := guarded.productions[0]) (by simp) rfl
  intro s hs
  have hmem : s ∈ ([.nonterminal "A", .nonterminal "S"] : Word) :=
    List.contains_iff_mem.1 (Std.ExtTreeSet.mem_ofList.1 hs)
  simp only [List.mem_cons, List.not_mem_nil, or_false] at hmem
  rcases hmem with rfl | rfl
  · exact ⟨[.terminal "y"], by decide, hA⟩
  · exact ⟨[.terminal "y", .terminal "x"], by decide, hS.trans (hA.append .refl)⟩

theorem build_guarded : ActionTable.build (guarded.tableSource isContextFree_guarded) =
    .ok (.tabulate (guarded.tableSource isContextFree_guarded)) := by
  refine (ActionTable.build_reject_eq_ok_iff rfl).2 ⟨?_, rfl⟩
  rw [TableSource.isConflictFree_iff]
  decide +kernel

end Grammar

/-- At the end of the input `y` is reduced to `A`, which the end cannot follow. Still `y` begins a
    generated word. -/
theorem Parser.exists_generates_guarded :
    Grammar.guarded.IsProductive ∧
      Grammar.guarded.followTable.allows (.nonterminal "A") .eof = false ∧
      ∃ ids c, (Grammar.guarded.tableSource Grammar.isContextFree_guarded).parser.Runs
          ⟨[], [.terminal "y"]⟩ ids c ∧
        c.symbols = [.nonterminal "A"] ∧ c.input = [] ∧
        ∃ z, Grammar.guarded.Generates (.terminal "y" :: z) := by
  let source := Grammar.guarded.tableSource Grammar.isContextFree_guarded
  have ha : Grammar.guarded.answer Session.automaton = .ok source.automaton :=
    Grammar.answer_automaton_eq_ok_iff.2 ⟨Grammar.isContextFree_guarded, rfl⟩
  have htable : Grammar.guarded.answer Session.actionTable = .ok (.tabulate source) :=
    Grammar.answer_actionTable_eq_ok_iff.2
      ⟨Grammar.isContextFree_guarded, Grammar.build_guarded⟩
  have hruns := source.parser.runs_after ⟨[], [.terminal "y"]⟩ 2
  have hend : (source.parser.after ⟨[], [.terminal "y"]⟩ 2).2.symbols = [.nonterminal "A"] ∧
      (source.parser.after ⟨[], [.terminal "y"]⟩ 2).2.input = [] := by
    decide +kernel
  obtain ⟨u, hu, z, hz⟩ :=
    exists_generates_of_runs Grammar.isProductive_guarded ha htable (by decide) hruns
  rw [hend.2, List.append_nil] at hu
  subst hu
  exact ⟨Grammar.isProductive_guarded, by decide +kernel, _, _, hruns, hend.1, hend.2, z, hz⟩

end ShiftReduce
