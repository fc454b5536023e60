import ShiftReduce.ActionTable

set_option autoImplicit false

/-! # Cells of the ACTION table

The action that a table gives for a state and a lookahead is the first candidate of the cell, so
what the table does is told by which actions are candidates. A table without conflicts has no other
candidate than that one.

**`ActionTable.action?_tabulate`**: looking up the table is taking the first candidate.
**`TableSource.head?_candidatesIn_of_mem`**: without conflicts a candidate is the table's action. -/

namespace ShiftReduce

namespace TableSource

variable {t : TableSource} {st : State} {s : Symbol} {id : ProductionId}

/-! ## Candidates -/

theorem shift_mem_candidatesIn_iff {target : StateId} : .shift target ∈ t.candidatesIn st s ↔
    (∃ i ∈ st.items, i.next? t.automaton.grammar = some s) ∧ st.edges[s]? = some target := by
  have hreduce : Action.shift target ∉ t.reductions st s := by
    simp [reductions]
  have haccept : Action.shift target ∉ t.acceptance st s := by
    unfold acceptance
    split <;> simp
  simp only [candidatesIn, List.mem_append, hreduce, haccept, or_false, shifts]
  split
  · next h =>
    simp only [List.any_eq_true, Std.ExtTreeSet.mem_toList, decide_eq_true_eq] at h
    simp [h]
  · next h =>
    simp only [List.any_eq_true, Std.ExtTreeSet.mem_toList, decide_eq_true_eq] at h
    simp [h]

/-- What makes a complete item a reduction. -/
theorem reduction?_eq_some_iff {i : Item} : t.reduction? s i = some id ↔
    i.production = id ∧ i.isComplete t.automaton.grammar = true ∧
      ∃ lhs, i.lhs? t.automaton.grammar = some lhs ∧ t.mayReduce lhs s = true := by
  simp only [reduction?, Option.bind_eq_bind, Option.bind_eq_some_iff,
    Option.ite_none_right_eq_some, Option.some.injEq]
  refine ⟨?_, ?_⟩
  · intro h
    obtain ⟨lhs, hlhs, ⟨hcomplete, hmay⟩, hid⟩ := h
    exact ⟨hid, hcomplete, lhs, hlhs, hmay⟩
  · intro h
    obtain ⟨hid, hcomplete, lhs, hlhs, hmay⟩ := h
    exact ⟨lhs, hlhs, ⟨hcomplete, hmay⟩, hid⟩

theorem reduce_mem_candidatesIn_iff : .reduce id ∈ t.candidatesIn st s ↔
    ∃ i ∈ st.items, i.production = id ∧ i.isComplete t.automaton.grammar = true ∧
      ∃ lhs, i.lhs? t.automaton.grammar = some lhs ∧ t.mayReduce lhs s = true := by
  have hshift : Action.reduce id ∉ t.shifts st s := by
    unfold shifts
    split <;> simp
  have haccept : Action.reduce id ∉ t.acceptance st s := by
    unfold acceptance
    split <;> simp
  simp only [candidatesIn, List.mem_append, hshift, haccept, false_or, or_false, reductions,
    List.mem_map, List.mem_filterMap, Std.ExtTreeSet.mem_toList, Action.reduce.injEq,
    exists_eq_right, reduction?_eq_some_iff]

theorem accept_mem_candidatesIn_iff : .accept ∈ t.candidatesIn st s ↔
    s = .eof ∧ t.automaton.finalItem ∈ st.items := by
  have hshift : Action.accept ∉ t.shifts st s := by
    unfold shifts
    split <;> simp
  have hreduce : Action.accept ∉ t.reductions st s := by
    simp [reductions]
  simp only [candidatesIn, List.mem_append, hshift, hreduce, false_or, acceptance]
  split <;> simp_all

/-! ## Lookups -/

theorem mem_lookaheads_iff : s ∈ t.lookaheads ↔ IsLookahead t.terminals s := by
  have hused : s ∈ t.usedTerminals → s ∈ t.terminals := by
    intro h
    rw [usedTerminals, List.mem_eraseDups, List.mem_filter] at h
    simpa using h.2
  simp only [lookaheads, List.mem_append, List.mem_filter, Std.ExtTreeSet.mem_toList,
    decide_eq_true_eq, List.mem_singleton, IsLookahead]
  refine ⟨?_, ?_⟩
  · intro h
    rcases h with (h | h) | h
    · exact Or.inr (hused h)
    · exact Or.inr h.1
    · exact Or.inl h
  · intro h
    rcases h with h | h
    · exact Or.inr h
    · by_cases hs : s ∈ t.usedTerminals
      · exact Or.inl (Or.inl hs)
      · exact Or.inl (Or.inr ⟨h, hs⟩)

/-- A map that cells are put into holds their first candidates, and otherwise what it held. -/
theorem getElem?_insertMany_cells (t : TableSource) (st : State) (l : List Symbol)
    (m : Std.ExtTreeMap Symbol Action) :
    (m.insertMany ((l.map fun s => (s, t.candidatesIn st s)).filterMap
      fun (s, found) => found.head?.map fun a => (s, a)))[s]? =
    (if s ∈ l then (t.candidatesIn st s).head? else none).or m[s]? := by
  induction l generalizing m with
  | nil => simp
  | cons r l ih =>
    simp only [List.map_cons, List.filterMap_cons]
    match hr : (t.candidatesIn st r).head? with
    | none =>
      rw [Option.map_none]
      dsimp only
      rw [ih]
      by_cases hs : s = r
      · subst hs
        simp [hr]
      · simp [hs]
    | some a =>
      rw [Option.map_some]
      dsimp only
      rw [Std.ExtTreeMap.insertMany_cons, ih, Std.ExtTreeMap.getElem?_insert]
      by_cases hs : s = r
      · subst hs
        by_cases hmem : s ∈ l <;> simp [hr, hmem]
      · have hne : ¬compare r s = .eq := by
          simpa using Ne.symm hs
        simp [hs, hne]

theorem getElem?_row (t : TableSource) (st : State) (s : Symbol) :
    (t.row st)[s]? = if s ∈ t.lookaheads then (t.candidatesIn st s).head? else none := by
  rw [row, Std.ExtTreeMap.ofList_eq_insertMany_empty, cells, getElem?_insertMany_cells]
  simp

/-! ## Conflicts -/

/-- Whether no cell has more than one candidate. -/
def IsConflictFree (t : TableSource) : Prop :=
  ∀ st ∈ t.automaton.states, ∀ s, IsLookahead t.terminals s → (t.candidatesIn st s).length ≤ 1

theorem conflictsIn_eq_nil_iff {n : StateId} : t.conflictsIn st n = [] ↔
    ∀ s, IsLookahead t.terminals s → (t.candidatesIn st s).length ≤ 1 := by
  simp only [conflictsIn, cells, List.filterMap_eq_nil_iff, List.forall_mem_map,
    mem_lookaheads_iff, ite_eq_right_iff, reduceCtorEq, imp_false, Nat.not_lt]

theorem isConflictFree_iff : t.IsConflictFree ↔ (ActionTable.tabulate t).conflicts = [] := by
  simp only [ActionTable.tabulate, List.flatMap_eq_nil_iff, Prod.forall, conflictsIn_eq_nil_iff]
  constructor
  · intro h st n hmem
    exact h st (List.fst_mem_of_mem_zipIdx hmem)
  · intro h st hst
    obtain ⟨n, hn⟩ := List.getElem?_of_mem hst
    exact h st n (List.mem_zipIdx_iff_getElem?.2 hn)

theorem head?_candidatesIn_of_mem (ht : t.IsConflictFree) (hst : st ∈ t.automaton.states)
    (hs : IsLookahead t.terminals s) {a : Action} (ha : a ∈ t.candidatesIn st s) :
    (t.candidatesIn st s).head? = some a := by
  have hlen := ht st hst s hs
  match hfound : t.candidatesIn st s with
  | [] => simp [hfound] at ha
  | [b] =>
    rw [hfound, List.mem_singleton] at ha
    rw [ha, List.head?_cons]
  | _ :: _ :: _ => simp [hfound] at hlen

end TableSource

namespace ActionTable

variable {t : TableSource}

/-- **The table and its candidates agree**, in their errors too. -/
theorem action?_tabulate (t : TableSource) (id : StateId) (s : Symbol) :
    (tabulate t).action? id s = (t.candidates id s).map List.head? := by
  have hrow : (tabulate t).rows[id]? = (t.automaton.states[id]?).map t.row := by
    rw [tabulate, List.getElem?_map]
  unfold action? TableSource.candidates Automaton.state?
  rw [hrow]
  cases t.automaton.states[id]? with
  | none => rfl
  | some st =>
    show (if IsLookahead t.terminals s then _ else _) = Except.map _ (if _ then _ else _)
    by_cases hs : IsLookahead t.terminals s
    · rw [if_pos hs, if_pos hs, t.getElem?_row, if_pos (TableSource.mem_lookaheads_iff.2 hs)]
      rfl
    · rw [if_neg hs, if_neg hs]
      rfl

/-- Refusing conflicts leaves the tables without any. -/
theorem build_reject_eq_ok_iff {table : ActionTable} (ht : t.options.onConflict = .reject) :
    build t = .ok table ↔ t.IsConflictFree ∧ table = tabulate t := by
  rw [TableSource.isConflictFree_iff]
  unfold build enforce
  by_cases h : (tabulate t).conflicts = []
  · simp [h, eq_comm]
  · simp [h, ht]

end ActionTable

end ShiftReduce
