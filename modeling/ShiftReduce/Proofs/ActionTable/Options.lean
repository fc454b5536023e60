import ShiftReduce.Proofs.ActionTable.Acceptance
import ShiftReduce.Proofs.Session.Coherent

set_option autoImplicit false

/-! # What the options change

The option for the end of the input decides about candidates in one column only, and there it takes
reductions away when it is turned off. The policy decides about no candidate at all, only about what
is done with a table that has conflicts. So a grammar whose table is not refused with the option is
not refused without it either, and its plain table is the other one with some cells emptied.

**`TableSource.candidatesIn_sublist`**: turning the option off leaves a part of the candidates.
**`Grammar.variesWithOptions`**: how the tables of one grammar are related. -/

namespace ShiftReduce

/-- What is kept more often leaves more of a list. -/
theorem filterMap_sublist_filterMap {α β : Type} {f f' : α → Option β}
    (h : ∀ a b, f a = some b → f' a = some b) (l : List α) :
    (l.filterMap f).Sublist (l.filterMap f') := by
  induction l with
  | nil => exact List.Sublist.slnil
  | cons a rest ih =>
    rw [List.filterMap_cons, List.filterMap_cons]
    cases hf : f a with
    | none =>
      cases f' a with
      | none => exact ih
      | some b => exact ih.cons b
    | some b =>
      rw [h a b hf]
      exact ih.cons_cons b

namespace TableSource

variable {g : AugmentedGrammar} {t : TableSource} {st : State} {id : StateId} {s lhs : Symbol}
  {options options' : TableOptions}

/-- The same with other options. -/
def withOptions (t : TableSource) (options : TableOptions) : TableSource :=
  { t with options := options }

/-! ## Candidates -/

theorem mayReduce_withOptions_mono
    (h : s = .eof → options.reduceOnAnyEof = true → options'.reduceOnAnyEof = true)
    (hmay : (t.withOptions options).mayReduce lhs s = true) :
    (t.withOptions options').mayReduce lhs s = true := by
  obtain ⟨hne, hpermits⟩ := mayReduce_iff.1 hmay
  refine mayReduce_iff.2 ⟨hne, ?_⟩
  rcases hpermits with ⟨heof, hany⟩ | hfollow
  · exact Or.inl ⟨heof, h heof hany⟩
  · exact Or.inr hfollow

/-- Only at the end of the input, and only with the option for it, there may be more candidates. -/
theorem candidatesIn_sublist
    (h : s = .eof → options.reduceOnAnyEof = true → options'.reduceOnAnyEof = true) :
    ((t.withOptions options).candidatesIn st s).Sublist
      ((t.withOptions options').candidatesIn st s) := by
  have hreductions : ((t.withOptions options).reductions st s).Sublist
      ((t.withOptions options').reductions st s) := by
    refine (filterMap_sublist_filterMap ?_ _).map _
    intro i p hp
    obtain ⟨hid, hcomplete, lhs, hlhs, hmay⟩ := reduction?_eq_some_iff.1 hp
    exact reduction?_eq_some_iff.2
      ⟨hid, hcomplete, lhs, hlhs, mayReduce_withOptions_mono h hmay⟩
  exact ((List.Sublist.refl _).append hreductions).append (List.Sublist.refl _)

theorem candidatesIn_withOptions
    (h : s = .eof → options.reduceOnAnyEof = options'.reduceOnAnyEof) :
    (t.withOptions options).candidatesIn st s = (t.withOptions options').candidatesIn st s :=
  (candidatesIn_sublist fun heof hany => (h heof).symm.trans hany).antisymm
    (candidatesIn_sublist fun heof hany => (h heof).trans hany)

theorem candidates_withOptions
    (h : s = .eof → options.reduceOnAnyEof = options'.reduceOnAnyEof) :
    (t.withOptions options).candidates id s = (t.withOptions options').candidates id s := by
  have hcell : ∀ st, (t.withOptions options).candidatesIn st s =
      (t.withOptions options').candidatesIn st s := fun _ => candidatesIn_withOptions h
  simp only [candidates, hcell]
  rfl

theorem cells_withOptions (h : options.reduceOnAnyEof = options'.reduceOnAnyEof) :
    (t.withOptions options).cells st = (t.withOptions options').cells st :=
  List.map_congr_left fun s _ => congrArg (s, ·) (candidatesIn_withOptions fun _ => h)

/-- A candidate that other options add is a reduction that the FOLLOW table does not allow. -/
theorem exists_reduce_of_mem_of_notMem (ht : t.automaton = .ofGrammar g)
    (hst : t.automaton.state? id = some st) {a : Action}
    (ha : a ∈ (t.withOptions options').candidatesIn st s)
    (hnot : a ∉ (t.withOptions options).candidatesIn st s) :
    ∃ p production lhs, a = .reduce p ∧ t.automaton.grammar.rules[p]? = some production ∧
      production.lhs? = some lhs ∧ t.follow.allows lhs s = false := by
  -- Shifts and acceptance do not ask for the options.
  cases a with
  | shift target =>
    have hiff (o : TableOptions) : .shift target ∈ (t.withOptions o).candidatesIn st s ↔
        (∃ i ∈ st.items, i.next? t.automaton.grammar = some s) ∧ st.edges[s]? = some target :=
      shift_mem_candidatesIn_iff (t := t.withOptions o)
    exact absurd ((hiff options).2 ((hiff options').1 ha)) hnot
  | accept =>
    have hiff (o : TableOptions) : .accept ∈ (t.withOptions o).candidatesIn st s ↔
        s = .eof ∧ t.automaton.finalItem ∈ st.items :=
      accept_mem_candidatesIn_iff (t := t.withOptions o)
    exact absurd ((hiff options).2 ((hiff options').1 ha)) hnot
  | reduce p =>
    have hiff (o : TableOptions) : .reduce p ∈ (t.withOptions o).candidatesIn st s ↔
        (t.withOptions o).IsReducible st.items s p :=
      reduce_mem_iff_isReducible (t := t.withOptions o) ht hst
    obtain ⟨production, lhs, hp, hlhs, hmem, -⟩ := (hiff options').1 ha
    refine ⟨p, production, lhs, rfl, hp, hlhs, Bool.eq_false_iff.2 fun hallows => hnot ?_⟩
    exact (hiff options).2
      ⟨production, lhs, hp, hlhs, hmem, Or.inr (FollowTable.allows_iff.1 hallows)⟩

/-- In a cell without conflicts there is no other candidate beside such a reduction. -/
theorem exists_reduce_of_head?_ne (ht : t.automaton = .ofGrammar g)
    (hst : t.automaton.state? id = some st)
    (h : s = .eof → options.reduceOnAnyEof = true → options'.reduceOnAnyEof = true)
    (hlen : ((t.withOptions options').candidatesIn st s).length ≤ 1)
    (hne : ((t.withOptions options).candidatesIn st s).head? ≠
      ((t.withOptions options').candidatesIn st s).head?) :
    (t.withOptions options).candidatesIn st s = [] ∧
      ∃ p production lhs, (t.withOptions options').candidatesIn st s = [.reduce p] ∧
        t.automaton.grammar.rules[p]? = some production ∧ production.lhs? = some lhs ∧
        t.follow.allows lhs s = false := by
  have hsub : ((t.withOptions options).candidatesIn st s).Sublist
      ((t.withOptions options').candidatesIn st s) := candidatesIn_sublist h
  match hfound' : (t.withOptions options').candidatesIn st s with
  | [] =>
    rw [hfound', List.sublist_nil] at hsub
    rw [hsub, hfound'] at hne
    exact absurd rfl hne
  | [a] =>
    rw [hfound', List.sublist_singleton] at hsub
    rcases hsub with hnil | heq
    · have ha : a ∈ (t.withOptions options').candidatesIn st s := by simp [hfound']
      have hnot : a ∉ (t.withOptions options).candidatesIn st s := by simp [hnil]
      obtain ⟨p, production, lhs, rfl, hp⟩ := exists_reduce_of_mem_of_notMem ht hst ha hnot
      exact ⟨hnil, p, production, lhs, rfl, hp⟩
    · rw [heq, hfound'] at hne
      exact absurd rfl hne
  | _ :: _ :: _ => simp [hfound'] at hlen

theorem IsConflictFree.of_withOptions
    (h : options.reduceOnAnyEof = true → options'.reduceOnAnyEof = true)
    (hfree : (t.withOptions options').IsConflictFree) : (t.withOptions options).IsConflictFree :=
  fun st hst s hs =>
    Nat.le_trans (candidatesIn_sublist fun _ => h).length_le (hfree st hst s hs)

end TableSource

namespace ActionTable

open TableSource

variable {g : AugmentedGrammar} {t : TableSource} {b : Bool}

/-! ## Policies -/

/-- Without an enforced policy the table depends on the option for the end of the input alone. -/
theorem tabulate_withOptions {options options' : TableOptions}
    (h : options.reduceOnAnyEof = options'.reduceOnAnyEof) :
    tabulate (t.withOptions options) = tabulate (t.withOptions options') := by
  have hrow : (t.withOptions options).row = (t.withOptions options').row := by
    funext st
    rw [row, row, cells_withOptions h]
  have hconflicts : (t.withOptions options).conflictsIn = (t.withOptions options').conflictsIn := by
    funext st id
    rw [conflictsIn, conflictsIn, cells_withOptions h]
  rw [tabulate, tabulate, hrow, hconflicts]
  rfl

/-- Tolerating conflicts, the table is built whatever its conflicts are. -/
theorem build_preferShift (t : TableSource) (b : Bool) :
    build (t.withOptions ⟨.preferShift, b⟩) = .ok (tabulate (t.withOptions ⟨.preferShift, b⟩)) :=
  if_neg fun h => nomatch h.2

/-- Refused are exactly the conflicts that would have been tolerated. -/
theorem build_reject_eq_error_iff {conflicts : List Conflict} :
    build (t.withOptions ⟨.reject, b⟩) = .error (.conflicts conflicts) ↔ conflicts ≠ [] ∧
      ∃ table, build (t.withOptions ⟨.preferShift, b⟩) = .ok table ∧
        table.conflicts = conflicts := by
  have htable :
      tabulate (t.withOptions ⟨.reject, b⟩) = tabulate (t.withOptions ⟨.preferShift, b⟩) :=
    tabulate_withOptions rfl
  rw [build_eq_error_iff, build_preferShift, htable]
  constructor
  · rintro ⟨-, hne, he⟩
    obtain rfl := GrammarError.conflicts.inj he
    exact ⟨hne, _, rfl, rfl⟩
  · rintro ⟨hne, table, hbuild, rfl⟩
    obtain rfl := Except.ok.inj hbuild
    exact ⟨rfl, hne, rfl⟩

/-- What is not refused is the table that tolerating conflicts would have given. -/
theorem exists_build_eq_ok_of_not_refused
    (h : ∀ conflicts, build (t.withOptions ⟨.reject, b⟩) ≠ .error (.conflicts conflicts)) :
    ∃ table, build (t.withOptions ⟨.reject, b⟩) = .ok table ∧
      build (t.withOptions ⟨.preferShift, b⟩) = .ok table := by
  cases hbuild : build (t.withOptions ⟨.reject, b⟩) with
  | error e =>
    obtain ⟨-, -, rfl⟩ := build_eq_error_iff.1 hbuild
    exact absurd hbuild (h _)
  | ok table =>
    refine ⟨table, rfl, ?_⟩
    rw [build_preferShift, eq_tabulate_of_build hbuild]
    exact congrArg Except.ok (tabulate_withOptions rfl)

/-! ## Plain tables -/

/-- Whether the plain table is the other one with some cells for the end of the input emptied, which
    hold reductions that the FOLLOW table does not allow. -/
structure IsPlainOf (plain table : ActionTable) (ps : List Production) (follow : FollowTable) :
    Prop where
  action?_eq : ∀ id s, s ≠ .eof → plain.action? id s = table.action? id s
  of_action?_ne : ∀ id, plain.action? id .eof ≠ table.action? id .eof →
    plain.action? id .eof = .ok none ∧
      ∃ p production lhs, table.action? id .eof = .ok (some (.reduce p)) ∧
        ps[p]? = some production ∧ production.lhs? = some lhs ∧ follow.allows lhs .eof = false

theorem isPlainOf_tabulate (ht : t.automaton = .ofGrammar g) {options options' : TableOptions}
    (h : options.reduceOnAnyEof = true → options'.reduceOnAnyEof = true)
    (hfree : (t.withOptions options').IsConflictFree) :
    (tabulate (t.withOptions options)).IsPlainOf (tabulate (t.withOptions options'))
      g.rules t.follow := by
  constructor
  · intro id s hs
    rw [action?_tabulate, action?_tabulate, candidates_withOptions fun heof => absurd heof hs]
  · intro id hne
    rw [action?_tabulate, action?_tabulate] at hne ⊢
    cases hst : t.automaton.state? id with
    | none =>
      have hunknown (o : TableOptions) :
          (t.withOptions o).candidates id .eof = .error (.unknownState id) := by
        have hnone : (t.withOptions o).automaton.state? id = none := hst
        rw [candidates, hnone]
      rw [hunknown, hunknown] at hne
      exact absurd rfl hne
    | some st =>
      have hfound (o : TableOptions) :
          (t.withOptions o).candidates id .eof = .ok ((t.withOptions o).candidatesIn st .eof) :=
        candidates_eq_ok_iff.2 ⟨st, hst, Or.inl rfl, rfl⟩
      rw [hfound, hfound] at hne ⊢
      have hlen := hfree st (List.mem_of_getElem? hst) .eof (Or.inl rfl)
      obtain ⟨hnil, p, production, lhs, hreduce, hp, hlhs, hallows⟩ :=
        exists_reduce_of_head?_ne ht hst (fun _ => h) hlen fun he => hne (congrArg Except.ok he)
      rw [hnil, hreduce]
      rw [ht] at hp
      exact ⟨rfl, p, production, lhs, rfl, hp, hlhs, hallows⟩

end ActionTable

/-! ## Grammars -/

namespace Grammar

variable {g : Grammar}

/-- The same rules with other options. -/
def withOptions (g : Grammar) (options : TableOptions) : Grammar where
  toParts := { g.toParts with options := options }
  sound := ⟨g.sound.isTerminal, g.sound.isNonterminal, g.sound.start_mem, g.sound.knows⟩
  distinct := g.distinct

theorem isContextFree_withOptions {options : TableOptions} :
    (g.withOptions options).IsContextFree ↔ g.IsContextFree := Iff.rfl

theorem answer_actionTable_withOptions (h : g.IsContextFree) (options : TableOptions) :
    (g.withOptions options).answer Session.actionTable =
      ActionTable.build ((g.tableSource h).withOptions options) :=
  answer_actionTable (isContextFree_withOptions.2 h)

/-- How the candidates and the tables of one grammar are related when only its options vary. -/
structure VariesWithOptions (g : Grammar) (h : g.IsContextFree) : Prop where
  /-- Before a terminal the candidates do not depend on the options. -/
  candidates_terminal : ∀ id < (Automaton.ofGrammar (g.augmented h)).size, ∀ s ∈ g.terminals,
    ∃ found, ∀ options : TableOptions,
      ((g.withOptions options).tableSource h).candidates id s = .ok found
  candidates_eof : ∀ id < (Automaton.ofGrammar (g.augmented h)).size, ∀ policy policy',
    ∃ found found',
      ((g.withOptions ⟨policy, false⟩).tableSource h).candidates id .eof = .ok found ∧
      ((g.withOptions ⟨policy', true⟩).tableSource h).candidates id .eof = .ok found' ∧
      found.Sublist found'
  refused_iff : ∀ any conflicts,
    (g.withOptions ⟨.reject, any⟩).answer Session.actionTable = .error (.conflicts conflicts) ↔
      conflicts ≠ [] ∧ ∃ table,
        (g.withOptions ⟨.preferShift, any⟩).answer Session.actionTable = .ok table ∧
        table.conflicts = conflicts
  of_not_refused : ∀ any,
    (∀ conflicts, (g.withOptions ⟨.reject, any⟩).answer Session.actionTable ≠
      .error (.conflicts conflicts)) →
    ∃ table, (g.withOptions ⟨.reject, any⟩).answer Session.actionTable = .ok table ∧
      (g.withOptions ⟨.preferShift, any⟩).answer Session.actionTable = .ok table
  plain : ∀ table, (g.withOptions ⟨.reject, true⟩).answer Session.actionTable = .ok table →
    ∃ plain, (g.withOptions ⟨.reject, false⟩).answer Session.actionTable = .ok plain ∧
      plain.IsPlainOf table g.productions g.followTable

/-- **How the tables of a grammar vary with its options.** The policy decides only whether a table
    with conflicts is refused. The option for the end of the input adds reductions there, and where
    nothing is refused it fills empty cells. -/
theorem variesWithOptions (g : Grammar) (h : g.IsContextFree) : g.VariesWithOptions h := by
  let t := g.tableSource h
  have hcandidates (options : TableOptions) {id : StateId} {s : Symbol}
      (hid : id < t.automaton.size) (hs : IsLookahead g.terminals s) :
      ((g.withOptions options).tableSource h).candidates id s =
        .ok ((t.withOptions options).candidatesIn t.automaton.states[id] s) :=
    TableSource.candidates_eq_ok_iff.2 ⟨_, List.getElem?_eq_getElem hid, hs, rfl⟩
  constructor
  · intro id hid s hs
    have hne : s ≠ .eof := by
      rintro rfl
      exact Bool.noConfusion (g.sound.isTerminal .eof hs)
    refine ⟨(t.withOptions g.options).candidatesIn t.automaton.states[id] s, fun options => ?_⟩
    rw [hcandidates options hid (Or.inr hs)]
    exact congrArg Except.ok (TableSource.candidatesIn_withOptions fun heof => absurd heof hne)
  · intro id hid policy policy'
    refine ⟨_, _, hcandidates _ hid (Or.inl rfl), hcandidates _ hid (Or.inl rfl), ?_⟩
    exact TableSource.candidatesIn_sublist fun _ hany => nomatch hany
  · intro any conflicts
    rw [answer_actionTable_withOptions h, answer_actionTable_withOptions h]
    exact ActionTable.build_reject_eq_error_iff
  · intro any hnot
    rw [answer_actionTable_withOptions h] at hnot ⊢
    rw [answer_actionTable_withOptions h]
    exact ActionTable.exists_build_eq_ok_of_not_refused hnot
  · intro table htable
    rw [answer_actionTable_withOptions h, ActionTable.build_reject_eq_ok_iff rfl] at htable
    obtain ⟨hfree, rfl⟩ := htable
    have hany : false = true → true = true := fun _ => rfl
    refine ⟨.tabulate (t.withOptions ⟨.reject, false⟩), ?_, ?_⟩
    · rw [answer_actionTable_withOptions h, ActionTable.build_reject_eq_ok_iff rfl]
      exact ⟨hfree.of_withOptions hany, rfl⟩
    · exact ActionTable.isPlainOf_tabulate (t := t) rfl hany hfree

/-- A letter `y`, or the word `yz` with a mark `x` after it. -/
def marked : Grammar where
  terminals := .ofList ([.terminal "x", .terminal "y", .terminal "z"] : Word)
  nonterminals := .ofList ([.nonterminal "A", .nonterminal "M"] : Word)
  productions := [
    ⟨[.nonterminal "M"], [.nonterminal "A", .terminal "x"], .contextFree, by decide⟩,
    ⟨[.nonterminal "M"], [.terminal "y"], .contextFree, by decide⟩,
    ⟨[.nonterminal "A"], [.terminal "y", .terminal "z"], .contextFree, by decide⟩]
  start := .nonterminal "M"
  sound := Parts.fault?_eq_none_iff.1 (by decide +kernel)
  distinct := by decide

theorem isContextFree_marked : marked.IsContextFree := by decide +kernel

/-- After `yz` the plain table has no action at the end of the input, which cannot follow `A`. -/
theorem variesWithOptions_marked :
    marked.VariesWithOptions isContextFree_marked ∧
      ∃ table plain,
        (marked.withOptions ⟨.reject, true⟩).answer Session.actionTable = .ok table ∧
        (marked.withOptions ⟨.reject, false⟩).answer Session.actionTable = .ok plain ∧
        plain.IsPlainOf table marked.productions marked.followTable ∧
        table.action? 5 .eof = .ok (some (.reduce 2)) ∧ plain.action? 5 .eof = .ok none := by
  have hvaries := variesWithOptions marked isContextFree_marked
  let t := marked.tableSource isContextFree_marked
  have hcells : (ActionTable.tabulate (t.withOptions ⟨.reject, true⟩)).conflicts = [] ∧
      (t.withOptions ⟨.reject, true⟩).candidates 5 .eof = .ok [.reduce 2] ∧
      (t.withOptions ⟨.reject, false⟩).candidates 5 .eof = .ok [] := by decide +kernel
  have htable : (marked.withOptions ⟨.reject, true⟩).answer Session.actionTable =
      .ok (.tabulate (t.withOptions ⟨.reject, true⟩)) := by
    rw [answer_actionTable_withOptions isContextFree_marked, ActionTable.build_reject_eq_ok_iff rfl,
      TableSource.isConflictFree_iff]
    exact ⟨hcells.1, rfl⟩
  obtain ⟨plain, hplain, hof⟩ := hvaries.plain _ htable
  refine ⟨hvaries, _, plain, htable, hplain, hof, ?_, ?_⟩
  · exact ActionTable.action?_tabulate_eq_ok_iff.2 ⟨_, hcells.2.1, rfl⟩
  · rw [answer_actionTable_withOptions isContextFree_marked] at hplain
    rw [ActionTable.eq_tabulate_of_build hplain]
    exact ActionTable.action?_tabulate_eq_ok_iff.2 ⟨_, hcells.2.2, rfl⟩

end Grammar

end ShiftReduce
