import ShiftReduce.Proofs.ActionTable.Agreement
import ShiftReduce.Proofs.Automaton.Entry

set_option autoImplicit false

/-! # What the candidates of a cell are

With the automaton of a grammar none of the checks that skip an item ever skips one that counts.
The items of a state are items of the grammar, so a complete one has its dot right at the end, and
there is one for each production at most. Every symbol after a dot has an edge, and no right side
has `$` in it. The order of the items is then the order of the productions.

**`TableSource.isExact_choices`**: the candidates by kind, with any FOLLOW table and any options.
**`Grammar.exists_isExact`**: the same for the cells of a grammar. -/

namespace ShiftReduce

/-! ## Actions by kind -/

/-- Where a shift leads, if there is one, what may be reduced, and whether the input is accepted. -/
structure Choices where
  shift? : Option StateId
  reductions : List ProductionId
  accepts : Bool

namespace Choices

variable {c : Choices}

/-- The actions in order of precedence. -/
def actions (c : Choices) : List Action :=
  (c.shift?.map Action.shift).toList ++ c.reductions.map Action.reduce ++
    if c.accepts then [.accept] else []

theorem shift_mem_actions_iff {target : StateId} :
    .shift target ∈ c.actions ↔ c.shift? = some target := by
  unfold actions
  split <;> simp [eq_comm]

theorem reduce_mem_actions_iff {id : ProductionId} :
    .reduce id ∈ c.actions ↔ id ∈ c.reductions := by
  unfold actions
  split <;> simp

/-- No action is listed twice when no reduction is. -/
theorem nodup_actions (h : c.reductions.Nodup) : c.actions.Nodup := by
  have hshift : (c.shift?.map Action.shift).toList.Nodup := by
    cases c.shift? <;> simp
  have hreduce : (c.reductions.map Action.reduce).Nodup :=
    h.map fun _ _ he => Action.reduce.inj he
  have haccept : (if c.accepts then [Action.accept] else []).Nodup := by
    split <;> simp
  rw [actions, List.nodup_append, List.nodup_append]
  refine ⟨⟨hshift, hreduce, ?_⟩, haccept, ?_⟩
  · intro a ha b hb he
    simp only [Option.mem_toList, Option.map_eq_some_iff] at ha
    obtain ⟨target, -, rfl⟩ := ha
    obtain ⟨id, -, rfl⟩ := List.mem_map.1 hb
    nomatch he
  · intro a ha b hb he
    obtain rfl : b = .accept := by
      split at hb
      · exact List.mem_singleton.1 hb
      · nomatch hb
    subst he
    simp at ha

end Choices

namespace TableSource

variable {g : AugmentedGrammar} {t : TableSource} {st : State} {id : StateId} {items : ItemSet}
  {s lhs : Symbol}

/-! ## What qualifies -/

/-- Whether a left side may be reduced before the lookahead, which follows it or is `$` when `$`
    counts as following everything. -/
def Permits (t : TableSource) (lhs s : Symbol) : Prop :=
  s = .eof ∧ t.options.reduceOnAnyEof = true ∨ ∃ set, t.follow.get? lhs = some set ∧ s ∈ set

/-- Whether a rule is complete among the items and its left side may be reduced. -/
def IsReducible (t : TableSource) (items : ItemSet) (s : Symbol) (id : ProductionId) : Prop :=
  ∃ p lhs, t.automaton.grammar.rules[id]? = some p ∧ p.lhs? = some lhs ∧
    ⟨id, p.right.length⟩ ∈ items ∧ t.Permits lhs s

/-- What the choices are, for a state with the given items and a lookahead. -/
structure IsExact (t : TableSource) (id : StateId) (items : ItemSet) (s : Symbol) (c : Choices) :
    Prop where
  shift?_eq : c.shift? = t.automaton.goto? id s
  isSome_shift?_iff : c.shift?.isSome = true ↔
    ∃ i ∈ items, i.next? t.automaton.grammar = some s
  shift?_eof : s = .eof → c.shift? = none
  pairwise_reductions : c.reductions.Pairwise (· < ·)
  mem_reductions_iff : ∀ p, p ∈ c.reductions ↔ t.IsReducible items s p
  accepts_iff : c.accepts = true ↔ s = .eof ∧ t.automaton.finalItem ∈ items

theorem mayReduce_iff : t.mayReduce lhs s = true ↔ lhs ≠ .start ∧ t.Permits lhs s := by
  simp only [mayReduce, Bool.and_eq_true, Bool.or_eq_true, bne_iff_ne, beq_iff_eq,
    FollowTable.allows_iff, Permits]

/-- Of a production only the item with the dot at the end is reduced, and `S′ -> S` never is. -/
theorem reduction?_eq_some_iff_of_inRange {i : Item} (hi : i.InRange t.automaton.grammar)
    {id : ProductionId} : t.reduction? s i = some id ↔
      ∃ p lhs, t.automaton.grammar.rules[id]? = some p ∧ p.lhs? = some lhs ∧
        i = ⟨id, p.right.length⟩ ∧ t.Permits lhs s := by
  obtain ⟨p, hp, hdot⟩ := hi
  rw [reduction?_eq_some_iff]
  constructor
  · rintro ⟨rfl, hcomplete, lhs, hlhs, hmay⟩
    obtain ⟨q, hq, hlength⟩ := Item.isComplete_iff.1 hcomplete
    obtain rfl := Option.some.inj (hq.symm.trans hp)
    obtain ⟨r, hr, hlhs⟩ := Item.lhs?_eq_some_iff.1 hlhs
    obtain rfl := Option.some.inj (hr.symm.trans hp)
    obtain ⟨hne, hpermits⟩ := mayReduce_iff.1 hmay
    have hrule : t.automaton.grammar.rules[i.production]? = some r := by
      rcases AugmentedGrammar.production?_eq_some_iff.1 hp with ⟨-, rfl⟩ | hrule
      · rw [AugmentedGrammar.lhs?_augmentedProduction, Option.some.injEq] at hlhs
        exact absurd hlhs.symm hne
      · exact hrule
    have hend : i.dot = r.right.length := by omega
    exact ⟨r, lhs, hrule, hlhs, by rw [← hend], hpermits⟩
  · rintro ⟨q, lhs, hq, hlhs, rfl, hpermits⟩
    have hproduction := AugmentedGrammar.production?_of_getElem? hq
    obtain ⟨name, hname⟩ := AugmentedGrammar.lhs?_of_mem_rules (List.mem_of_getElem? hq)
    have hne : lhs ≠ .start := by
      rw [hname, Option.some.injEq] at hlhs
      simp [← hlhs]
    exact ⟨rfl, Item.isComplete_iff.2 ⟨q, hproduction, Nat.le_refl _⟩, lhs,
      Item.lhs?_eq_some_iff.2 ⟨q, hproduction, hlhs⟩, mayReduce_iff.2 ⟨hne, hpermits⟩⟩

/-! ## The candidates of a state -/

/-- The candidates by kind. -/
def choices (t : TableSource) (st : State) (s : Symbol) : Choices where
  shift? :=
    if ∃ i ∈ st.items.toList, i.next? t.automaton.grammar = some s then st.edges[s]? else none
  reductions := st.items.toList.filterMap (t.reduction? s)
  accepts := s = .eof ∧ t.automaton.finalItem ∈ st.items

theorem actions_choices (t : TableSource) (st : State) (s : Symbol) :
    (t.choices st s).actions = t.candidatesIn st s := by
  simp only [Choices.actions, choices, candidatesIn, shifts, reductions, acceptance,
    List.any_eq_true, decide_eq_true_eq]
  congr 2
  split <;> rfl

/-- Items of one production are apart by their dots, so complete ones are apart by their
    productions. -/
theorem pairwise_reductions (hrange : ∀ i ∈ st.items, i.InRange t.automaton.grammar) :
    (t.choices st s).reductions.Pairwise (· < ·) := by
  have hordered : st.items.toList.Pairwise fun i j => compare i j = .lt :=
    Std.ExtTreeSet.ordered_toList
  show (st.items.toList.filterMap (t.reduction? s)).Pairwise (· < ·)
  rw [List.pairwise_filterMap]
  refine hordered.imp_of_mem ?_
  intro i j hi hj hlt p hp q hq
  have hi := hrange i (Std.ExtTreeSet.mem_toList.1 hi)
  have hj := hrange j (Std.ExtTreeSet.mem_toList.1 hj)
  obtain ⟨r, -, hr, -, rfl, -⟩ := (reduction?_eq_some_iff_of_inRange hi).1 hp
  obtain ⟨r', -, hr', -, rfl, -⟩ := (reduction?_eq_some_iff_of_inRange hj).1 hq
  rcases Item.compare_eq_lt_iff.1 hlt with hlt | ⟨heq, hlt⟩
  · exact hlt
  · obtain rfl : p = q := heq
    obtain rfl := Option.some.inj (hr.symm.trans hr')
    exact absurd hlt (Nat.lt_irrefl _)

/-- The candidates of a state are exact, whatever the FOLLOW table and the options are. -/
theorem isExact_choices (ht : t.automaton = .ofGrammar g)
    (hst : t.automaton.state? id = some st) : t.IsExact id st.items s (t.choices st s) := by
  have hgraph : t.automaton.IsGotoGraph := ht ▸ Automaton.isGotoGraph_ofGrammar g
  have hitems : t.automaton.items? id = some st.items := by
    rw [Automaton.items?, hst, Option.map_some]
  have hrange : ∀ i ∈ st.items, i.InRange t.automaton.grammar := by
    rw [ht] at hitems ⊢
    exact Automaton.inRange_of_items? hitems
  have hedge : t.automaton.goto? id s = st.edges[s]? := by
    rw [Automaton.goto?, hst]
    rfl
  have hnone : st.edges[s]? = none ↔ ∀ i ∈ st.items, i.next? t.automaton.grammar ≠ some s := by
    rw [← hedge, hgraph.goto?_eq_none_iff hitems, ItemSet.goto?_eq_none_iff]
  -- Without such an item there is no edge either, so the check for one takes nothing away.
  have hshift : (t.choices st s).shift? = st.edges[s]? := by
    unfold choices
    dsimp only
    split
    · rfl
    · next h => exact (hnone.2 fun i hi hx => h ⟨i, Std.ExtTreeSet.mem_toList.2 hi, hx⟩).symm
  refine ⟨hshift.trans hedge.symm, ?_, ?_, pairwise_reductions hrange, ?_, decide_eq_true_iff⟩
  · rw [hshift, Option.isSome_iff_ne_none, ne_eq, hnone]
    simp
  · rintro rfl
    rw [hshift, hnone]
    intro i _ hi
    exact Bool.noConfusion (Item.isSentinel_of_next? hi)
  · intro p
    simp only [choices, List.mem_filterMap, Std.ExtTreeSet.mem_toList]
    constructor
    · rintro ⟨i, hi, hp⟩
      obtain ⟨q, lhs, hq, hlhs, rfl, hpermits⟩ :=
        (reduction?_eq_some_iff_of_inRange (hrange i hi)).1 hp
      exact ⟨q, lhs, hq, hlhs, hi, hpermits⟩
    · rintro ⟨q, lhs, hq, hlhs, hi, hpermits⟩
      exact ⟨_, hi, (reduction?_eq_some_iff_of_inRange (hrange _ hi)).2
        ⟨q, lhs, hq, hlhs, rfl, hpermits⟩⟩

theorem reduce_mem_iff_isReducible (ht : t.automaton = .ofGrammar g)
    (hst : t.automaton.state? id = some st) {p : ProductionId} :
    .reduce p ∈ t.candidatesIn st s ↔ t.IsReducible st.items s p := by
  rw [← actions_choices, Choices.reduce_mem_actions_iff,
    (isExact_choices ht hst).mem_reductions_iff]

/-- The production `S′ -> S` is never reduced. -/
theorem IsReducible.lt_augmented {p : ProductionId} (h : t.IsReducible items s p) :
    p < t.automaton.grammar.augmented := by
  obtain ⟨q, -, hq, -⟩ := h
  exact (List.getElem?_eq_some_iff.1 hq).1

end TableSource

/-! ## The cells of a grammar -/

namespace Grammar

/-- The automaton and the terminals of the grammar, with any FOLLOW table and any options. -/
def tableSourceWith (g : Grammar) (h : g.IsContextFree) (follow : FollowTable)
    (options : TableOptions) : TableSource :=
  { g.tableSource h with follow := follow, options := options }

/-- **The candidates of a cell are exact.** There is one for each state and each lookahead of the
    grammar: first the shift along the edge over the lookahead, then the reductions in the order of
    the productions, then acceptance. So none comes twice. -/
theorem exists_isExact (g : Grammar) (h : g.IsContextFree) (follow : FollowTable)
    (options : TableOptions) {id : StateId} {items : ItemSet} {s : Symbol}
    (hid : (Automaton.ofGrammar (g.augmented h)).items? id = some items)
    (hs : IsLookahead g.terminals s) :
    ∃ c : Choices, (g.tableSourceWith h follow options).candidates id s = .ok c.actions ∧
      (g.tableSourceWith h follow options).IsExact id items s c ∧
      c.actions.Nodup ∧
      (∀ target target', .shift target ∈ c.actions → .shift target' ∈ c.actions →
        target = target') ∧
      .reduce (g.augmented h).augmented ∉ c.actions := by
  obtain ⟨st, hst, rfl⟩ := Automaton.items?_eq_some_iff.1 hid
  have hexact := TableSource.isExact_choices (t := g.tableSourceWith h follow options)
    (s := s) rfl hst
  refine ⟨_, ?_, hexact, ?_, ?_, ?_⟩
  · rw [TableSource.actions_choices]
    exact TableSource.candidates_eq_ok_iff.2 ⟨st, hst, hs, rfl⟩
  · exact Choices.nodup_actions (hexact.pairwise_reductions.imp Nat.ne_of_lt)
  · intro target target' htarget htarget'
    rw [Choices.shift_mem_actions_iff] at htarget htarget'
    exact Option.some.inj (htarget.symm.trans htarget')
  · rw [Choices.reduce_mem_actions_iff, hexact.mem_reductions_iff]
    intro hreducible
    exact Nat.lt_irrefl _ hreducible.lt_augmented

/-- A cell with a shift and two reductions, which the given FOLLOW table allows. -/
theorem isExact_repetitions :
    ∃ t items c, t = repetitions.tableSourceWith isContextFree_repetitions
        ⟨(∅ : Family).add (.nonterminal "W") {.terminal "w"}⟩ {} ∧
      t.automaton.items? 3 = some items ∧ IsLookahead repetitions.terminals (.terminal "w") ∧
      t.candidates 3 (.terminal "w") = .ok c.actions ∧
      c.actions = [.shift 2, .reduce 0, .reduce 1] ∧ t.IsExact 3 items (.terminal "w") c := by
  let follow : FollowTable := ⟨(∅ : Family).add (.nonterminal "W") {.terminal "w"}⟩
  have hfound : (repetitions.tableSourceWith isContextFree_repetitions follow {}).candidates 3
      (.terminal "w") = .ok [.shift 2, .reduce 0, .reduce 1] := by decide +kernel
  obtain ⟨st, hst, hs, -⟩ := TableSource.candidates_eq_ok_iff.1 hfound
  have hitems := Automaton.items?_eq_some_iff.2 ⟨st, hst, rfl⟩
  obtain ⟨c, hc, hexact, -⟩ :=
    exists_isExact repetitions isContextFree_repetitions follow {} hitems hs
  exact ⟨_, st.items, c, rfl, hitems, hs, hc, Except.ok.inj (hc.symm.trans hfound), hexact⟩

end Grammar

end ShiftReduce
