import ShiftReduce.Proofs.ActionTable.Renaming
import ShiftReduce.Proofs.Follow.Membership

set_option autoImplicit false

/-! # Reordered grammars

A grammar with its productions in another order gives every production another name and nothing
else. The order decides in which order items are listed, states are found and lookaheads are taken,
so the tables of the two grammars are laid out differently. What they say is the same up to names:
FIRST and FOLLOW are equal, the automata have the same states, and the ACTION tables the same
candidates and as many conflicts.

**`Grammar.IsReordering.isRenaming`**: the tables are built from the same things under other names.
**`Grammar.exists_corresponds_of_isReordering`**: what that means for each table. -/

namespace ShiftReduce

namespace Grammar

/-- Whether `g'` is `g` with its productions in another order, where the production `id` of `g` has
    come to be the production `π id`. -/
structure IsReordering (g g' : Grammar) (π : Equiv.Perm ProductionId) : Prop where
  terminals_eq : g'.terminals = g.terminals
  nonterminals_eq : g'.nonterminals = g.nonterminals
  start_eq : g'.start = g.start
  options_eq : g'.options = g.options
  production?_eq : ∀ id, g'.production? (π id) = g.production? id
  fixed : ∀ id, g.productions.length ≤ id → π id = id

variable {g g' : Grammar} {π : Equiv.Perm ProductionId}

theorem IsReordering.length_productions (hπ : g.IsReordering g' π) :
    g'.productions.length = g.productions.length := by
  have hnone {g : Grammar} {id : ProductionId} :
      g.production? id = none ↔ g.productions.length ≤ id :=
    List.getElem?_eq_none_iff
  refine Nat.le_antisymm ?_ ?_
  · rw [← hnone, ← hπ.fixed _ (Nat.le_refl _), hπ.production?_eq, hnone]
  · -- The first name that `g'` does not use is one that `g` does not use, so it is its own.
    have hfree : g.productions.length ≤ π.symm g'.productions.length := by
      rw [← hnone, ← hπ.production?_eq, Equiv.apply_symm_apply, hnone]
    have hself := hπ.fixed _ hfree
    rw [Equiv.apply_symm_apply] at hself
    rwa [← hself] at hfree

theorem IsReordering.mem_productions_iff (hπ : g.IsReordering g' π) (p : Production) :
    p ∈ g'.productions ↔ p ∈ g.productions := by
  rw [List.mem_iff_getElem?, List.mem_iff_getElem?]
  constructor
  · rintro ⟨id, hid⟩
    refine ⟨π.symm id, ?_⟩
    have hback := hπ.production?_eq (π.symm id)
    rw [Equiv.apply_symm_apply] at hback
    exact hback.symm.trans hid
  · rintro ⟨id, hid⟩
    exact ⟨π id, (hπ.production?_eq id).trans hid⟩

theorem IsReordering.isContextFree (hπ : g.IsReordering g' π) (h : g.IsContextFree) :
    g'.IsContextFree := by
  refine (le_narrowestClass_iff g').2 fun p hp => ?_
  exact (le_narrowestClass_iff g).1 h p ((hπ.mem_productions_iff p).1 hp)

theorem IsReordering.firstTable_eq (hπ : g.IsReordering g' π) : g'.firstTable = g.firstTable :=
  FirstTable.ofProductions_congr hπ.mem_productions_iff

theorem IsReordering.followTable_eq (hπ : g.IsReordering g' π) : g'.followTable = g.followTable :=
  followTable_congr hπ.mem_productions_iff hπ.nonterminals_eq hπ.start_eq

theorem IsReordering.augmented (hπ : g.IsReordering g' π) (h : g.IsContextFree)
    (h' : g'.IsContextFree) : (g.augmented h).IsRenaming (g'.augmented h') π := by
  have hlast : π g.productions.length = g'.productions.length := by
    rw [hπ.length_productions, hπ.fixed _ (Nat.le_refl _)]
  refine ⟨?_, hlast⟩
  intro id
  unfold AugmentedGrammar.production?
  have hsame : π id = (g'.augmented h').augmented ↔ id = (g.augmented h).augmented := by
    show π id = g'.productions.length ↔ id = g.productions.length
    rw [← hlast, π.injective.eq_iff]
  simp only [hsame]
  split
  · show some (Production.augmented g'.start) = some (Production.augmented g.start)
    rw [hπ.start_eq]
  · exact hπ.production?_eq id

/-- How the states of the one automaton are named in the other. -/
def stateNames (g g' : Grammar) (π : Equiv.Perm ProductionId) (h : g.IsContextFree)
    (h' : g'.IsContextFree) : StateId → StateId :=
  Automaton.counterpart (.ofGrammar (g.augmented h)) (.ofGrammar (g'.augmented h')) π

theorem IsReordering.isRenaming (hπ : g.IsReordering g' π) (h : g.IsContextFree)
    (h' : g'.IsContextFree) :
    (g.tableSource h).IsRenaming (g'.tableSource h') π (g.stateNames g' π h h') where
  automaton := Automaton.isRenaming_ofGrammar (hπ.augmented h h')
  follow_eq := hπ.followTable_eq
  terminals_eq := hπ.terminals_eq
  options_eq := hπ.options_eq

/-- **Reordering the productions changes names only.** The FIRST and FOLLOW tables are equal. The
    states of the automata correspond to each other, with the productions in their items and the
    ends of their edges renamed, and so do the candidates of each cell. There are as many conflicts,
    so both ACTION tables are built or none, and where there is no conflict they agree cell by
    cell. -/
theorem exists_corresponds_of_isReordering (hπ : g.IsReordering g' π) (h : g.IsContextFree) :
    g'.answer Session.first = g.answer Session.first ∧
    g'.answer Session.follow = g.answer Session.follow ∧
    ∃ (h' : g'.IsContextFree) (φ : StateId → StateId),
      (g.tableSource h).Corresponds (g'.tableSource h') π φ := by
  have h' := hπ.isContextFree h
  refine ⟨?_, ?_, h', g.stateNames g' π h h', (hπ.isRenaming h h').corresponds g.sound.isTerminal⟩
  · rw [answer_eq_of_answers (Session.answers_first h),
      answer_eq_of_answers (Session.answers_first h'), hπ.firstTable_eq]
  · rw [answer_eq_of_answers (Session.answers_follow h),
      answer_eq_of_answers (Session.answers_follow h'), hπ.followTable_eq]

/-! ## Two rules for one word -/

/-- `S` is `c` at once or by way of `C`, so behind `c` there are two reductions. -/
def choices : Grammar where
  terminals := .ofList ([.terminal "c"] : Word)
  nonterminals := .ofList ([.nonterminal "C", .nonterminal "S"] : Word)
  productions := [
    ⟨[.nonterminal "S"], [.terminal "c"], .contextFree, by decide⟩,
    ⟨[.nonterminal "S"], [.nonterminal "C"], .contextFree, by decide⟩,
    ⟨[.nonterminal "C"], [.terminal "c"], .contextFree, by decide⟩]
  start := .nonterminal "S"
  sound := Parts.fault?_eq_none_iff.1 (by decide +kernel)
  distinct := by decide

/-- The same with the rule of `C` in front. -/
def choicesReordered : Grammar where
  terminals := choices.terminals
  nonterminals := choices.nonterminals
  productions := [
    ⟨[.nonterminal "C"], [.terminal "c"], .contextFree, by decide⟩,
    ⟨[.nonterminal "S"], [.nonterminal "C"], .contextFree, by decide⟩,
    ⟨[.nonterminal "S"], [.terminal "c"], .contextFree, by decide⟩]
  start := .nonterminal "S"
  sound := Parts.fault?_eq_none_iff.1 (by decide +kernel)
  distinct := by decide

theorem swap_eq_self {id : Nat} (h : 3 ≤ id) : Equiv.swap 0 2 id = id := by
  have hzero : id ≠ 0 := by omega
  have htwo : id ≠ 2 := by omega
  exact Equiv.swap_apply_of_ne_of_ne hzero htwo

theorem isReordering_choices : choices.IsReordering choicesReordered (Equiv.swap 0 2) where
  terminals_eq := rfl
  nonterminals_eq := rfl
  start_eq := rfl
  options_eq := rfl
  production?_eq id := by
    match id with
    | 0 => rfl
    | 1 => rfl
    | 2 => rfl
    | id + 3 =>
      rw [swap_eq_self (Nat.le_add_left 3 id)]
      rfl
  fixed _ hid := swap_eq_self hid

theorem isContextFree_choices : choices.IsContextFree := by decide +kernel

/-- The reordered grammar has one conflict because the other one has, and it is refused, too. -/
theorem exists_corresponds_choices :
    choices.IsReordering choicesReordered (Equiv.swap 0 2) ∧ choices.IsContextFree ∧
      (ActionTable.tabulate (choices.tableSource isContextFree_choices)).conflicts.length = 1 ∧
      ∃ h', (ActionTable.tabulate (choicesReordered.tableSource h')).conflicts.length = 1 ∧
        ¬∃ table, ActionTable.build (choicesReordered.tableSource h') = .ok table := by
  have hone : (ActionTable.tabulate
      (choices.tableSource isContextFree_choices)).conflicts.length = 1 := by
    decide +kernel
  obtain ⟨-, -, h', φ, hsame⟩ :=
    exists_corresponds_of_isReordering isReordering_choices isContextFree_choices
  refine ⟨isReordering_choices, isContextFree_choices, hone, h',
    hsame.length_conflicts.trans hone, ?_⟩
  rw [hsame.isBuilt, ActionTable.exists_build_eq_ok_iff, not_or, not_not]
  refine ⟨?_, rfl⟩
  intro hnil
  simp [hnil] at hone

end Grammar

end ShiftReduce
