import ShiftReduce.Proofs.Parser.Completeness

set_option autoImplicit false

/-! # Conflicts and ambiguity

A parser reads each word in one way only. When its table has no conflicts it follows every rightmost
derivation, so there cannot be two of them, and a grammar with two rightmost derivations of one word
has a conflict in its table.

**`Grammar.isUnambiguous_of_build`**: a grammar is unambiguous when its table is not refused. -/

namespace ShiftReduce

namespace Grammar

/-- Whether every word of terminals has at most one rightmost derivation. -/
def IsUnambiguous (g : Grammar) : Prop :=
  ∀ w, Word.IsTerminal w → ∀ ids ids', DerivesRightmost g.productions ids [g.start] w →
    DerivesRightmost g.productions ids' [g.start] w → ids = ids'

/-- Two derivations of one word are two lists of reductions of the run on it. -/
theorem isUnambiguous_of_isConflictFree {g : Grammar} (h : g.IsContextFree) (options : TableOptions)
    (hfree : TableSource.IsConflictFree { g.tableSource h with options := options }) :
    g.IsUnambiguous := by
  intro w hw ids ids' hids hids'
  have hmem : ∀ s ∈ w, s ∈ g.terminals := Generates.mem_terminals ⟨hw, hids.derives⟩
  have hsource := g.isSourceOf_tableSource h options
  have haccepts := TableSource.accepts_of_derivesRightmost hsource hfree hids hmem
  have haccepts' := TableSource.accepts_of_derivesRightmost hsource hfree hids' hmem
  exact List.reverse_inj.1 (haccepts.unique haccepts')

/-- **A grammar whose table is not refused for its conflicts is unambiguous**, and the table of an
    ambiguous grammar is refused for some conflicts. -/
theorem isUnambiguous_of_build (g : Grammar) (h : g.IsContextFree) (reduceOnAnyEof : Bool) :
    (∀ table, ActionTable.build { g.tableSource h with options := ⟨.reject, reduceOnAnyEof⟩ } =
      .ok table → g.IsUnambiguous) ∧
    (¬g.IsUnambiguous → ∃ conflicts, conflicts ≠ [] ∧
      ActionTable.build { g.tableSource h with options := ⟨.reject, reduceOnAnyEof⟩ } =
        .error (.conflicts conflicts)) := by
  let source : TableSource := { g.tableSource h with options := ⟨.reject, reduceOnAnyEof⟩ }
  have hok : ∀ table, ActionTable.build source = .ok table → g.IsUnambiguous := by
    intro table hbuild
    have hfree := ((ActionTable.build_reject_eq_ok_iff (t := source) rfl).1 hbuild).1
    exact isUnambiguous_of_isConflictFree h ⟨.reject, reduceOnAnyEof⟩ hfree
  refine ⟨hok, ?_⟩
  intro hambiguous
  cases hbuild : ActionTable.build source with
  | ok table => exact absurd (hok table hbuild) hambiguous
  | error e =>
    obtain ⟨-, hconflicts, rfl⟩ := ActionTable.build_eq_error_iff.1 hbuild
    exact ⟨_, hconflicts, rfl⟩

theorem isUnambiguous_brackets :
    ActionTable.build (brackets.tableSource isContextFree_brackets) =
        .ok (.tabulate (brackets.tableSource isContextFree_brackets)) ∧
      brackets.IsUnambiguous := by
  have hall := isUnambiguous_of_build brackets isContextFree_brackets true
  exact ⟨build_brackets, hall.1 _ build_brackets⟩

end Grammar

end ShiftReduce
