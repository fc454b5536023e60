import ShiftReduce.Proofs.ActionTable.Candidates

set_option autoImplicit false

/-! # Where the input is accepted

No rule brings `S′ -> S` back, even when the start symbol comes up again in its own rules, so its
two items stay apart from all others: the first one is in the initial state only, and the second one
in the state to which the start symbol leads from there. This state has an action at the end of the
input, which is acceptance unless something may be reduced there, since reductions come first.

**`Grammar.exists_isSoleAccepting`**: one state accepts, and what its cell at the end holds. -/

namespace ShiftReduce

namespace Automaton

/-- The state is the only one with `[S′ → S ·]`. It is where the start symbol leads from the initial
    state, which is the only one with `[S′ → · S]` and to which nothing leads. -/
structure IsSoleAccepting (a : Automaton) (id : StateId) : Prop where
  lt_size : id < a.size
  finalItem_mem_iff : ∀ other items, a.items? other = some items →
    (a.finalItem ∈ items ↔ other = id)
  goto?_start : a.goto? initial a.grammar.start = some id
  accepting?_eq : a.accepting? = some id
  firstItem_mem_iff : ∀ other items, a.items? other = some items →
    (⟨a.grammar.augmented, 0⟩ ∈ items ↔ other = initial)
  goto?_ne_initial : ∀ source x, a.goto? source x ≠ some initial

theorem exists_isSoleAccepting_ofGrammar (g : AugmentedGrammar) :
    ∃ id, (ofGrammar g).IsSoleAccepting id := by
  obtain ⟨id, haccepting, hpath⟩ := accepting?_ofGrammar g
  obtain ⟨final, hfinal, hreached⟩ := reached?_of_path? hpath
  have hword : ∀ other items, (ofGrammar g).items? other = some items →
      ∃ w, ItemSet.reached? g w = some items := fun other items hother =>
    ItemSet.isReachable_iff.1 (exists_items?_iff.1 ⟨other, hother⟩)
  have hgoto : (ofGrammar g).goto? initial g.start = some id := by
    rw [← List.nil_append [g.start], path?_concat, path?_nil, Option.bind_some] at hpath
    exact hpath
  refine ⟨id, lt_size_of_items? hfinal, ?_, hgoto, haccepting, ?_,
    (isGotoGraph_ofGrammar g).goto?_ne_initial⟩
  · intro other items hother
    obtain ⟨w, hw⟩ := hword other items hother
    constructor
    · intro hmem
      obtain rfl := (ItemSet.final_mem_reached?_iff hw).1 hmem
      obtain rfl := Option.some.inj (hw.symm.trans hreached)
      exact items?_inj hother hfinal
    · rintro rfl
      obtain rfl := Option.some.inj (hother.symm.trans hfinal)
      exact (ItemSet.final_mem_reached?_iff hreached).2 rfl
  · intro other items hother
    obtain ⟨w, hw⟩ := hword other items hother
    constructor
    · intro hmem
      obtain rfl := ItemSet.eq_nil_of_augmented_mem_reached? hw hmem
      obtain rfl := Option.some.inj (hw.symm.trans (ItemSet.reached?_nil g))
      exact items?_inj hother (items?_initial g)
    · rintro rfl
      obtain rfl := Option.some.inj (hother.symm.trans (items?_initial g))
      exact ItemSet.subset_closure (Std.ExtTreeSet.mem_insert_self (t := ∅))

end Automaton

/-! ## The accepting cell -/

/-- Acceptance is the first action when it is the only one. -/
theorem Choices.head?_actions_eq_accept_iff {c : Choices} : c.actions.head? = some .accept ↔
    c.shift? = none ∧ c.reductions = [] ∧ c.accepts = true := by
  unfold actions
  cases hshift : c.shift? with
  | some target => simp
  | none =>
    cases hreduce : c.reductions with
    | cons id rest => simp
    | nil => cases haccepts : c.accepts <;> simp

namespace ActionTable

variable {g : AugmentedGrammar} {t : TableSource} {id : StateId} {s : Symbol}

/-- What the table built from `t` accepts: only the given state at the end of the input, and there
    exactly when nothing may be reduced. When conflicts are refused it does accept there. -/
structure AcceptsOnlyIn (table : ActionTable) (t : TableSource) (id : StateId) : Prop where
  action?_eq_accept_iff : ∀ other s, table.action? other s = .ok (some .accept) ↔
    other = id ∧ s = .eof ∧
      ∃ found, t.candidates id .eof = .ok found ∧ ∀ p, .reduce p ∉ found
  action?_eq_of_reject : t.options.onConflict = .reject →
    table.action? id .eof = .ok (some .accept)

theorem action?_tabulate_eq_ok_iff {action : Option Action} :
    (tabulate t).action? id s = .ok action ↔
      ∃ found, t.candidates id s = .ok found ∧ found.head? = action := by
  rw [action?_tabulate]
  cases t.candidates id s with
  | error e => simp [Except.map]
  | ok found => simp [Except.map]

/-- A cell accepts when acceptance is a candidate and no reduction is. -/
theorem action?_tabulate_eq_accept_iff (ht : t.automaton = .ofGrammar g) :
    (tabulate t).action? id s = .ok (some .accept) ↔
      ∃ found, t.candidates id s = .ok found ∧ .accept ∈ found ∧ ∀ p, .reduce p ∉ found := by
  rw [action?_tabulate_eq_ok_iff]
  refine exists_congr fun found => and_congr_right fun hfound => ?_
  obtain ⟨st, hst, -, rfl⟩ := TableSource.candidates_eq_ok_iff.1 hfound
  have hexact := TableSource.isExact_choices (s := s) ht hst
  have hreduce : ∀ p, .reduce p ∈ t.candidatesIn st s ↔ p ∈ (t.choices st s).reductions := by
    intro p
    rw [← TableSource.actions_choices, Choices.reduce_mem_actions_iff]
  rw [← t.actions_choices, Choices.head?_actions_eq_accept_iff, t.actions_choices,
    hexact.accepts_iff, ← TableSource.accept_mem_candidatesIn_iff]
  constructor
  · rintro ⟨-, hnil, haccept⟩
    refine ⟨haccept, fun p hp => ?_⟩
    rw [hreduce, hnil] at hp
    nomatch hp
  · rintro ⟨haccept, hnone⟩
    obtain ⟨heof, -⟩ := TableSource.accept_mem_candidatesIn_iff.1 haccept
    refine ⟨hexact.shift?_eof heof, List.eq_nil_iff_forall_not_mem.2 fun p hp => ?_, haccept⟩
    exact hnone p ((hreduce p).2 hp)

/-- A table accepts in the state that has the final item, if in any. -/
theorem acceptsOnlyIn_of_build {table : ActionTable} (ht : t.automaton = .ofGrammar g)
    (hid : t.automaton.IsSoleAccepting id) (htable : build t = .ok table) :
    table.AcceptsOnlyIn t id := by
  obtain rfl := eq_tabulate_of_build htable
  obtain ⟨st, hst⟩ : ∃ st, t.automaton.state? id = some st :=
    ⟨_, List.getElem?_eq_getElem hid.lt_size⟩
  have hfinal : t.automaton.finalItem ∈ st.items :=
    (hid.finalItem_mem_iff id st.items (Automaton.items?_eq_some_iff.2 ⟨st, hst, rfl⟩)).2 rfl
  have haccept : .accept ∈ t.candidatesIn st .eof :=
    TableSource.accept_mem_candidatesIn_iff.2 ⟨rfl, hfinal⟩
  have hfound : t.candidates id .eof = .ok (t.candidatesIn st .eof) :=
    TableSource.candidates_eq_ok_iff.2 ⟨st, hst, Or.inl rfl, rfl⟩
  constructor
  · intro other s
    rw [action?_tabulate_eq_accept_iff ht]
    constructor
    · rintro ⟨found, hother, hmem, hnone⟩
      obtain ⟨st', hst', -, rfl⟩ := TableSource.candidates_eq_ok_iff.1 hother
      obtain ⟨rfl, hfinal'⟩ := TableSource.accept_mem_candidatesIn_iff.1 hmem
      obtain rfl := (hid.finalItem_mem_iff other st'.items
        (Automaton.items?_eq_some_iff.2 ⟨st', hst', rfl⟩)).1 hfinal'
      exact ⟨rfl, rfl, _, hother, hnone⟩
    · rintro ⟨rfl, rfl, found, hother, hnone⟩
      obtain rfl := Except.ok.inj (hother.symm.trans hfound)
      exact ⟨_, hfound, haccept, hnone⟩
  · intro hreject
    have hfree := ((build_reject_eq_ok_iff hreject).1 htable).1
    rw [action?_tabulate_eq_ok_iff]
    exact ⟨_, hfound, TableSource.head?_candidatesIn_of_mem hfree (List.mem_of_getElem? hst)
      (Or.inl rfl) haccept⟩

end ActionTable

namespace Grammar

/-- **One state accepts**, and it does so in one cell at most: at the end of the input, when no
    reduction is a candidate there, and always when conflicts are refused. -/
theorem exists_isSoleAccepting (g : Grammar) (h : g.IsContextFree) :
    ∃ id, (Automaton.ofGrammar (g.augmented h)).IsSoleAccepting id ∧
      ∀ follow options table,
        ActionTable.build (g.tableSourceWith h follow options) = .ok table →
          table.AcceptsOnlyIn (g.tableSourceWith h follow options) id := by
  obtain ⟨id, hid⟩ := Automaton.exists_isSoleAccepting_ofGrammar (g.augmented h)
  refine ⟨id, hid, ?_⟩
  intro follow options table htable
  exact ActionTable.acceptsOnlyIn_of_build (t := g.tableSourceWith h follow options) rfl hid htable

/-- The start symbol may be reduced to itself at the end, and then nothing is accepted. -/
theorem isSoleAccepting_repetitions :
    ∃ t table, t = repetitions.tableSourceWith isContextFree_repetitions repetitions.followTable
        .lenient ∧
      ActionTable.build t = .ok table ∧ t.automaton.IsSoleAccepting 1 ∧
      table.AcceptsOnlyIn t 1 ∧ table.action? 1 .eof = .ok (some (.reduce 0)) := by
  let t := repetitions.tableSourceWith isContextFree_repetitions repetitions.followTable .lenient
  have hbuild : ActionTable.build t = .ok (.tabulate t) := by
    refine if_neg ?_
    rintro ⟨-, hreject⟩
    nomatch hreject
  obtain ⟨id, hid, htables⟩ := exists_isSoleAccepting repetitions isContextFree_repetitions
  have hcell : t.automaton.goto? Automaton.initial (.nonterminal "W") = some 1 ∧
      t.candidates 1 .eof = .ok [.reduce 0, .accept] := by decide +kernel
  obtain rfl : id = 1 := Option.some.inj (hid.goto?_start.symm.trans hcell.1)
  refine ⟨t, _, rfl, hbuild, hid, htables _ _ _ hbuild, ?_⟩
  exact ActionTable.action?_tabulate_eq_ok_iff.2 ⟨_, hcell.2, rfl⟩

end Grammar

end ShiftReduce
