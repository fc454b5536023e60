import Mathlib.Data.Set.Card
import ShiftReduce.Proofs.ActionTable.Report
import ShiftReduce.Session.Call

set_option autoImplicit false

/-! # What is told of the tables

The numbers in a record are counted by walking over the table that was computed. Such a walk passes
each nonterminal, state, edge or cell once, so the numbers are the sizes of sets, and these can be
described without the walk.

**`Session.recordsTables`**: what is told of each table of a context-free grammar. -/

namespace ShiftReduce

/-- A list without repetitions is as long as the set of its members is large. -/
theorem encard_eq_length {α : Type} {l : List α} {S : Set α} (hl : l.Nodup)
    (h : ∀ a, a ∈ l ↔ a ∈ S) : S.encard = l.length := by
  classical
  have hS : S = l.toFinset := by
    ext a
    rw [List.coe_toFinset, Set.mem_ofPred_eq, h]
  rw [hS, Set.encard_coe_eq_coe_finsetCard, List.toFinset_card_of_nodup hl]

theorem length_flatMap_zipIdx {α β : Type} (l : List α) (f : α → List β) (n : Nat) :
    ((l.zipIdx n).flatMap fun x => (f x.1).map fun b => (x.2, b)).length =
      total (fun a => (f a).length) l := by
  induction l generalizing n with
  | nil => rfl
  | cons a rest ih =>
    rw [List.zipIdx_cons, List.flatMap_cons, List.length_append, List.length_map, ih]
    rfl

/-! ## Nonterminals with a FOLLOW set -/

theorem Grammar.encard_nonterminals (g : Grammar) :
    {s | s ∈ g.nonterminals}.encard = g.followTable.size := by
  rw [encard_eq_length (l := g.followTable.sets.keys) Std.ExtTreeMap.nodup_keys,
    Std.ExtTreeMap.length_keys, FollowTable.size]
  intro s
  rw [Std.ExtTreeMap.mem_keys]
  exact mem_sets_followTable_iff

/-! ## States and edges -/

namespace Automaton

/-- The states of the automaton. -/
def stateIds (a : Automaton) : Set StateId :=
  {id | ∃ items, a.items? id = some items}

/-- The edges of the automaton, each told by the state that it leaves and its symbol. -/
def edgeSet (a : Automaton) : Set (StateId × Symbol) :=
  {e | ∃ target, a.goto? e.1 e.2 = some target}

theorem encard_stateIds (a : Automaton) : a.stateIds.encard = a.size := by
  rw [encard_eq_length (l := List.range a.size) List.nodup_range, List.length_range]
  intro id
  rw [List.mem_range]
  refine ⟨exists_items?_of_lt, ?_⟩
  rintro ⟨items, h⟩
  exact lt_size_of_items? h

theorem encard_edgeSet (a : Automaton) : a.edgeSet.encard = a.edgeCount := by
  have hnodup := nodup_flatMap_zipIdx (l := a.states) (f := fun st => st.edges.keys)
    fun _ _ => Std.ExtTreeMap.nodup_keys
  rw [encard_eq_length hnodup, length_flatMap_zipIdx a.states fun st => st.edges.keys]
  · simp only [Std.ExtTreeMap.length_keys, edgeCount]
  rintro ⟨id, s⟩
  simp only [edgeSet, Set.mem_ofPred_eq, goto?, state?, Option.bind_eq_bind,
    Option.bind_eq_some_iff, List.mem_flatMap, Prod.exists, List.mem_zipIdx_iff_getElem?,
    List.mem_map, Prod.mk.injEq, Std.ExtTreeMap.mem_keys, Std.ExtTreeMap.mem_iff_isSome_getElem?,
    Option.isSome_iff_exists]
  constructor
  · rintro ⟨st, id, hst, s, ⟨target, hs⟩, rfl, rfl⟩
    exact ⟨target, st, hst, hs⟩
  · rintro ⟨target, st, hst, hs⟩
    exact ⟨st, id, hst, s, ⟨target, hs⟩, rfl, rfl⟩

end Automaton

/-! ## Cells with an action -/

/-- The cells in which some action qualifies. -/
def TableSource.actionCells (t : TableSource) : Set (StateId × Symbol) :=
  {c | ∃ a rest, t.candidates c.1 c.2 = .ok (a :: rest)}

theorem ActionTable.encard_actionCells (t : TableSource) :
    t.actionCells.encard = (tabulate t).entryCount := by
  rw [encard_eq_length (nodup_entries (tabulate t)), List.length_map, entryCount]
  rintro ⟨id, s⟩
  simp only [List.mem_map, Prod.exists, Prod.mk.injEq]
  constructor
  · rintro ⟨id, s, a, hmem, rfl, rfl⟩
    exact ⟨a, mem_entries_tabulate_iff.1 hmem⟩
  · rintro ⟨a, hfound⟩
    exact ⟨id, s, a, mem_entries_tabulate_iff.2 hfound, rfl, rfl⟩

/-! ## Records -/

namespace Session

/-- Whether this is what has to be told of each table: nothing of FIRST, the number of nonterminals
    of FOLLOW, and of the automaton the numbers of its states and edges. Of the ACTION table each
    cell with a conflict is told, in the order of the report, and after these the numbers of states,
    of cells with an action and of conflicts. -/
structure RecordsTables (g : Grammar) (h : g.IsContextFree) (records : Table → List LogRecord) :
    Prop where
  first : records .first = []
  follow : ∃ n : ℕ, {s | s ∈ g.nonterminals}.encard = n ∧ records .follow = [.follow n]
  automaton : ∃ states edges : ℕ,
    (Automaton.ofGrammar (g.augmented h)).stateIds.encard = states ∧
    (Automaton.ofGrammar (g.augmented h)).edgeSet.encard = edges ∧
    records .automaton = [.automaton states edges]
  actions : ∃ (states cells : ℕ) (conflicts : List Conflict),
    (Automaton.ofGrammar (g.augmented h)).stateIds.encard = states ∧
    (g.tableSource h).actionCells.encard = cells ∧
    (g.tableSource h).ListsConflicts conflicts ∧ g.Reports conflicts ∧
    records .actions = conflicts.map (fun c => .conflict c.state c.candidates.length) ++
      [.actionTable states cells conflicts.length]

theorem recordsTables (g : Grammar) (h : g.IsContextFree) :
    RecordsTables g h (Table.records g h) where
  first := rfl
  follow := ⟨_, g.encard_nonterminals, rfl⟩
  automaton := ⟨_, _, Automaton.encard_stateIds _, Automaton.encard_edgeSet _, rfl⟩
  actions := by
    refine ⟨_, _, _, Automaton.encard_stateIds _, ActionTable.encard_actionCells _,
      ActionTable.listsConflicts_tabulate g.sound.isTerminal, Grammar.reports_tabulate h, ?_⟩
    have hsize : (ActionTable.tabulate (g.tableSource h)).size =
        (Automaton.ofGrammar (g.augmented h)).size := List.length_map ..
    rw [Table.records, ActionTable.records, hsize]

end Session

end ShiftReduce
