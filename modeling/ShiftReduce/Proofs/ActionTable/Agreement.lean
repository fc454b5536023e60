import Mathlib.Data.List.Nodup
import ShiftReduce.Proofs.ActionTable.Cell

set_option autoImplicit false

/-! # Tables and candidates

Everything that a table says is said by the candidates of its cells, which can also be asked for one
by one: what it holds in a cell, what it does not know, what it expects in a state, which cells it
lists and which conflicts. That does not depend on where the automaton, the FOLLOW table and the
terminals come from.

**`ActionTable.agrees_build`**: a table that is built agrees with the candidates on every cell, and
none is built exactly when conflicts are refused and there is one. -/

namespace ShiftReduce

/-! ## Lists without repetitions -/

theorem nodup_eraseDups {α : Type} [BEq α] [LawfulBEq α] (l : List α) : l.eraseDups.Nodup := by
  match l with
  | [] => exact List.nodup_nil
  | a :: rest =>
    rw [List.eraseDups_cons, List.nodup_cons]
    exact ⟨by simp [List.mem_eraseDups], nodup_eraseDups _⟩
termination_by l.length
decreasing_by exact Nat.lt_succ_of_le (List.length_filter_le _ _)

/-- Members that bear the places of the lists they are from repeat only within a list. -/
theorem nodup_flatMap_zipIdx {α β : Type} {l : List α} {f : α → List β}
    (h : ∀ a ∈ l, (f a).Nodup) :
    (l.zipIdx.flatMap fun x => (f x.1).map fun b => (x.2, b)).Nodup := by
  refine List.nodup_flatMap.2 ⟨?_, ?_⟩
  · intro x hx
    exact (h _ (List.fst_mem_of_mem_zipIdx hx)).map fun _ _ he => (Prod.mk.inj he).2
  · have hplaces : (l.zipIdx.map Prod.snd).Nodup := by
      rw [List.zipIdx_map_snd]
      exact List.nodup_range'
    refine (List.pairwise_map.1 hplaces).imp fun {x y} hne b hx hy => hne ?_
    obtain ⟨_, _, rfl⟩ := List.mem_map.1 hx
    obtain ⟨_, _, he⟩ := List.mem_map.1 hy
    exact (Prod.mk.inj he).1.symm

namespace TableSource

variable {t : TableSource} {st : State} {id : StateId} {s : Symbol}

/-! ## Candidates -/

theorem candidates_eq_ok_iff {found : List Action} : t.candidates id s = .ok found ↔
    ∃ st, t.automaton.state? id = some st ∧ IsLookahead t.terminals s ∧
      t.candidatesIn st s = found := by
  unfold candidates
  match t.automaton.state? id with
  | none => simp
  | some st => by_cases hs : IsLookahead t.terminals s <;> simp [hs]

theorem getElem?_row_eq_some_iff {a : Action} : (t.row st)[s]? = some a ↔
    IsLookahead t.terminals s ∧ ∃ rest, t.candidatesIn st s = a :: rest := by
  rw [getElem?_row, Option.ite_none_right_eq_some, mem_lookaheads_iff, List.head?_eq_some_iff]

/-- The cells of a state are those that are asked for one by one, and none is refused. -/
theorem mapM_candidates (hst : t.automaton.state? id = some st) :
    (t.lookaheads.mapM fun s => (t.candidates id s).map fun found => (s, found)) =
      .ok (t.cells st) := by
  have hcells (l : List Symbol) (hl : ∀ s ∈ l, IsLookahead t.terminals s) :
      (l.mapM fun s => (t.candidates id s).map fun found => (s, found)) =
        .ok (l.map fun s => (s, t.candidatesIn st s)) := by
    induction l with
    | nil => rfl
    | cons s rest ih =>
      have hs : t.candidates id s = .ok (t.candidatesIn st s) :=
        candidates_eq_ok_iff.2 ⟨st, hst, hl s List.mem_cons_self, rfl⟩
      rw [List.mapM_cons, hs, ih fun r hr => hl r (List.mem_cons_of_mem s hr)]
      rfl
  exact hcells _ fun s hs => mem_lookaheads_iff.1 hs

/-- A lookahead is listed once, unless the end of the input is among the terminals. -/
theorem nodup_lookaheads (h : ∀ s ∈ t.terminals, s.isTerminal = true) : t.lookaheads.Nodup := by
  have hused : t.usedTerminals.Nodup := nodup_eraseDups _
  have hunused : (t.terminals.toList.filter (· ∉ t.usedTerminals)).Nodup :=
    (nodup_toList t.terminals).filter _
  have hterminal : ∀ s ∈ t.usedTerminals ++ t.terminals.toList.filter (· ∉ t.usedTerminals),
      s.isTerminal = true := by
    intro s hs
    rcases List.mem_append.1 hs with hs | hs
    · rw [usedTerminals, List.mem_eraseDups, List.mem_filter] at hs
      exact h s (of_decide_eq_true hs.2)
    · exact h s (Std.ExtTreeSet.mem_toList.1 (List.mem_filter.1 hs).1)
  rw [lookaheads, List.nodup_append, List.nodup_append]
  refine ⟨⟨hused, hunused, ?_⟩, List.nodup_singleton _, ?_⟩
  · intro s hs r hr he
    subst he
    exact of_decide_eq_true (List.mem_filter.1 hr).2 hs
  · intro s hs r hr he
    rw [List.mem_singleton.1 hr] at he
    have heof := hterminal s hs
    simp [he, Symbol.isTerminal] at heof

/-! ## Conflicts -/

/-- Whether the list has each cell with more than one candidate once, with all candidates. -/
structure ListsConflicts (t : TableSource) (conflicts : List Conflict) : Prop where
  nodup : (conflicts.map fun c => (c.state, c.lookahead)).Nodup
  mem_iff : ∀ c, c ∈ conflicts ↔
    t.candidates c.state c.lookahead = .ok c.candidates ∧ 1 < c.candidates.length

/-- Whether the cell has more than one candidate. -/
def IsConflict (t : TableSource) (id : StateId) (s : Symbol) : Prop :=
  ∃ found, t.candidates id s = .ok found ∧ 1 < found.length

def HasConflict (t : TableSource) : Prop :=
  ∃ id s, t.IsConflict id s

theorem mem_conflictsIn_iff {c : Conflict} : c ∈ t.conflictsIn st id ↔
    c.state = id ∧ IsLookahead t.terminals c.lookahead ∧
      t.candidatesIn st c.lookahead = c.candidates ∧ 1 < c.candidates.length := by
  simp only [conflictsIn, cells, List.filterMap_map, List.mem_filterMap, Function.comp_apply,
    Option.ite_none_right_eq_some, Option.some.injEq, mem_lookaheads_iff]
  constructor
  · rintro ⟨s, hs, hlen, rfl⟩
    exact ⟨rfl, hs, rfl, hlen⟩
  · rintro ⟨rfl, hs, hfound, hlen⟩
    exact ⟨c.lookahead, hs, hfound ▸ hlen, by rw [hfound]⟩

theorem map_lookahead_conflictsIn (t : TableSource) (st : State) (id : StateId) :
    (t.conflictsIn st id).map (fun c => (c.state, c.lookahead)) =
      (t.lookaheads.filter fun s => 1 < (t.candidatesIn st s).length).map fun s => (id, s) := by
  unfold conflictsIn cells
  induction t.lookaheads with
  | nil => rfl
  | cons s rest ih =>
    rw [List.map_cons, List.filterMap_cons, List.filter_cons]
    by_cases hlen : 1 < (t.candidatesIn st s).length
    · simp only [if_pos hlen, decide_eq_true hlen, if_true, List.map_cons, ih]
    · simp only [if_neg hlen, decide_eq_false hlen, Bool.false_eq_true, if_false, ih]

end TableSource

namespace ActionTable

variable {t : TableSource} {id : StateId} {s : Symbol}

theorem getElem?_rows_tabulate (t : TableSource) (id : StateId) :
    (tabulate t).rows[id]? = (t.automaton.state? id).map t.row :=
  List.getElem?_map

theorem mem_conflicts_tabulate_iff {c : Conflict} : c ∈ (tabulate t).conflicts ↔
    t.candidates c.state c.lookahead = .ok c.candidates ∧ 1 < c.candidates.length := by
  simp only [tabulate, List.mem_flatMap, Prod.exists, List.mem_zipIdx_iff_getElem?,
    TableSource.mem_conflictsIn_iff, TableSource.candidates_eq_ok_iff]
  constructor
  · rintro ⟨st, id, hst, rfl, hs, hfound, hlen⟩
    exact ⟨⟨st, hst, hs, hfound⟩, hlen⟩
  · rintro ⟨⟨st, hst, hs, hfound⟩, hlen⟩
    exact ⟨st, c.state, hst, rfl, hs, hfound, hlen⟩

theorem listsConflicts_tabulate (h : ∀ s ∈ t.terminals, s.isTerminal = true) :
    t.ListsConflicts (tabulate t).conflicts where
  nodup := by
    rw [tabulate, List.map_flatMap]
    simp only [TableSource.map_lookahead_conflictsIn]
    refine nodup_flatMap_zipIdx
      (f := fun st => t.lookaheads.filter fun s => 1 < (t.candidatesIn st s).length) fun st _ => ?_
    exact (TableSource.nodup_lookaheads h).filter _
  mem_iff _ := mem_conflicts_tabulate_iff

theorem conflicts_tabulate_ne_nil_iff : (tabulate t).conflicts ≠ [] ↔ t.HasConflict := by
  rw [ne_eq, List.eq_nil_iff_forall_not_mem, not_forall_not]
  constructor
  · rintro ⟨c, hc⟩
    exact ⟨c.state, c.lookahead, c.candidates, mem_conflicts_tabulate_iff.1 hc⟩
  · rintro ⟨id, s, found, hfound⟩
    exact ⟨⟨id, s, found⟩, mem_conflicts_tabulate_iff.2 hfound⟩

/-! ## Agreement -/

/-- The table says what the candidates of the cells say. -/
structure Agrees (table : ActionTable) (t : TableSource) : Prop where
  action?_eq : ∀ id s, table.action? id s = (t.candidates id s).map List.head?
  expected_eq_error_iff : ∀ id e, table.expected id = .error e ↔
    t.automaton.state? id = none ∧ e = .unknownState id
  nodup_expected : ∀ id found, table.expected id = .ok found → found.Nodup
  mem_expected_iff : ∀ id found s, table.expected id = .ok found →
    (s ∈ found ↔ ∃ a rest, t.candidates id s = .ok (a :: rest))
  nodup_entries : (table.entries.map fun e => (e.1, e.2.1)).Nodup
  mem_entries_iff : ∀ id s a, (id, s, a) ∈ table.entries ↔
    ∃ rest, t.candidates id s = .ok (a :: rest)
  listsConflicts : (∀ s ∈ t.terminals, s.isTerminal = true) → t.ListsConflicts table.conflicts

theorem expected_tabulate (t : TableSource) (id : StateId) : (tabulate t).expected id =
    match t.automaton.state? id with
    | none => .error (.unknownState id)
    | some st => .ok (t.row st).keys := by
  rw [expected, getElem?_rows_tabulate]
  cases t.automaton.state? id <;> rfl

theorem mem_keys_row_iff {st : State} (hst : t.automaton.state? id = some st) :
    s ∈ (t.row st).keys ↔ ∃ a rest, t.candidates id s = .ok (a :: rest) := by
  simp only [Std.ExtTreeMap.mem_keys, Std.ExtTreeMap.mem_iff_isSome_getElem?,
    Option.isSome_iff_exists, TableSource.getElem?_row_eq_some_iff,
    TableSource.candidates_eq_ok_iff, hst, Option.some.injEq, exists_eq_left', exists_and_left]

theorem mem_entries_tabulate_iff {a : Action} : (id, s, a) ∈ (tabulate t).entries ↔
    ∃ rest, t.candidates id s = .ok (a :: rest) := by
  simp only [entries, List.mem_flatMap, Prod.exists, List.mem_zipIdx_iff_getElem?,
    getElem?_rows_tabulate, Option.map_eq_some_iff, List.mem_map,
    Std.ExtTreeMap.mem_toList_iff_getElem?_eq_some, TableSource.candidates_eq_ok_iff]
  constructor
  · rintro ⟨_, _, ⟨st, hst, rfl⟩, s, a, hrow, he⟩
    obtain ⟨rfl, rfl, rfl⟩ : _ ∧ _ ∧ _ := by simpa using he
    obtain ⟨hs, rest, hfound⟩ := TableSource.getElem?_row_eq_some_iff.1 hrow
    exact ⟨rest, st, hst, hs, hfound⟩
  · rintro ⟨rest, st, hst, hs, hfound⟩
    exact ⟨t.row st, id, ⟨st, hst, rfl⟩, s, a,
      TableSource.getElem?_row_eq_some_iff.2 ⟨hs, rest, hfound⟩, rfl⟩

theorem nodup_entries (table : ActionTable) :
    (table.entries.map fun e => (e.1, e.2.1)).Nodup := by
  have hkeys : table.entries.map (fun e => (e.1, e.2.1)) =
      table.rows.zipIdx.flatMap fun x => x.1.keys.map fun s => (x.2, s) := by
    simp only [entries, List.map_flatMap, List.map_map, ← Std.ExtTreeMap.map_fst_toList_eq_keys]
    rfl
  rw [hkeys]
  exact nodup_flatMap_zipIdx fun row _ => Std.ExtTreeMap.nodup_keys

theorem agrees_tabulate (t : TableSource) : (tabulate t).Agrees t where
  action?_eq := action?_tabulate t
  expected_eq_error_iff id e := by
    rw [expected_tabulate]
    cases t.automaton.state? id <;> simp [eq_comm]
  nodup_expected id found hfound := by
    rw [expected_tabulate] at hfound
    split at hfound
    · nomatch hfound
    · obtain rfl := Except.ok.inj hfound
      exact Std.ExtTreeMap.nodup_keys
  mem_expected_iff id found s hfound := by
    rw [expected_tabulate] at hfound
    split at hfound
    · nomatch hfound
    · next st hst =>
      obtain rfl := Except.ok.inj hfound
      exact mem_keys_row_iff hst
  nodup_entries := nodup_entries _
  mem_entries_iff _ _ _ := mem_entries_tabulate_iff
  listsConflicts := listsConflicts_tabulate

/-- **A table that is built agrees with the candidates**, whatever it is built from. No cell that is
    asked for in building is refused, so building fails exactly when there is a conflict and
    conflicts are refused, and then it tells the conflicts. -/
theorem agrees_build (t : TableSource) :
    (∀ table, build t = .ok table → table.Agrees t) ∧
    (∀ id st, t.automaton.state? id = some st →
      (t.lookaheads.mapM fun s => (t.candidates id s).map fun found => (s, found)) =
        .ok (t.cells st)) ∧
    ∀ e, build t = .error e ↔ t.options.onConflict = .reject ∧ t.HasConflict ∧
      e = .conflicts (tabulate t).conflicts := by
  refine ⟨?_, fun id st hst => TableSource.mapM_candidates hst, ?_⟩
  · intro table htable
    rw [eq_tabulate_of_build htable]
    exact agrees_tabulate t
  · intro e
    rw [build_eq_error_iff, conflicts_tabulate_ne_nil_iff]

end ActionTable

end ShiftReduce
