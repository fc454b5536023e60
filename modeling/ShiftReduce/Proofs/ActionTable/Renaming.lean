import ShiftReduce.Proofs.ActionTable.Agreement
import ShiftReduce.Proofs.Automaton.Renaming

set_option autoImplicit false

/-! # Tables of renamed automata

The reductions of a state come in the order of its items, so the candidates of a cell may come in
another order when productions are renamed, but they are the same actions under other names. A cell
is then a conflict under both names or under none, and a cell without one has the same action.

**`TableSource.IsRenaming.candidates`**: the candidates of a cell are renamed and maybe reordered.
**`TableSource.IsRenaming.corresponds`**: what that means for the tables. -/

namespace ShiftReduce

/-- The action with the other names of its production or state. -/
def Action.rename (π : Equiv.Perm ProductionId) (φ : StateId → StateId) : Action → Action
  | shift target => shift (φ target)
  | reduce id => reduce (π id)
  | accept => accept

/-- Both are refused for the same reason, or the second has the actions of the first under their
    other names, in some order. -/
inductive AreRenamed (π : Equiv.Perm ProductionId) (φ : StateId → StateId) :
    Except GrammarError (List Action) → Except GrammarError (List Action) → Prop where
  | refused (e : GrammarError) : AreRenamed π φ (.error e) (.error e)
  | answered {found found' : List Action} (h : found'.Perm (found.map (Action.rename π φ))) :
    AreRenamed π φ (.ok found) (.ok found')

variable {π : Equiv.Perm ProductionId} {φ : StateId → StateId}

/-! ## States -/

/-- Whether `st'` has the items and the edges of `st` under other names. -/
structure State.IsRenaming (st st' : State) (π : Equiv.Perm ProductionId) (φ : StateId → StateId) :
    Prop where
  items_eq : st'.items = st.items.rename π
  edges_eq : ∀ x : Symbol, st'.edges[x]? = st.edges[x]?.map φ

theorem Automaton.IsRenaming.exists_state? {a a' : Automaton} (h : a.IsRenaming a' π φ)
    {id : StateId} {st : State} (hst : a.state? id = some st) :
    ∃ st', a'.state? (φ id) = some st' ∧ st.IsRenaming st' π φ := by
  have hid : id < a.size := (List.getElem?_eq_some_iff.1 hst).1
  have hitems := h.items?_eq id hid
  rw [items?, items?, hst, Option.map_some, Option.map_some, Option.map_eq_some_iff] at hitems
  obtain ⟨st', hst', hitems⟩ := hitems
  refine ⟨st', hst', hitems, ?_⟩
  intro x
  have hgoto := h.goto?_eq id hid x
  simpa only [goto?, hst, hst', Option.bind_eq_bind, Option.bind_some] using hgoto

/-- The items are listed under their other names, in another order. -/
theorem ItemSet.toList_rename_perm (π : Equiv.Perm ProductionId) (items : ItemSet) :
    (items.rename π).toList.Perm (items.toList.map (Item.rename π)) := by
  have hnodup := (nodup_toList items).map (Item.rename_injective π)
  refine (List.perm_ext_iff_of_nodup (nodup_toList _) hnodup).2 fun j => ?_
  simp only [Std.ExtTreeSet.mem_toList, mem_rename_iff, List.mem_map]

/-! ## Candidates -/

namespace TableSource

/-- Whether `t'` is `t` with other names for the productions and the states of the automaton. -/
structure IsRenaming (t t' : TableSource) (π : Equiv.Perm ProductionId) (φ : StateId → StateId) :
    Prop where
  automaton : t.automaton.IsRenaming t'.automaton π φ
  follow_eq : t'.follow = t.follow
  terminals_eq : t'.terminals = t.terminals
  options_eq : t'.options = t.options

variable {t t' : TableSource} {st st' : State} {id : StateId}

theorem IsRenaming.shifts (h : t.IsRenaming t' π φ) (hst : st.IsRenaming st' π φ) (s : Symbol) :
    t'.shifts st' s = (t.shifts st s).map (Action.rename π φ) := by
  have hmoves : (st'.items.toList.any fun i => i.next? t'.automaton.grammar = some s) =
      st.items.toList.any fun i => i.next? t.automaton.grammar = some s := by
    rw [hst.items_eq, (ItemSet.toList_rename_perm π st.items).any_eq, List.any_map]
    simp only [Function.comp_def, Item.next?_rename h.automaton.grammar]
  rw [TableSource.shifts, TableSource.shifts, hmoves, hst.edges_eq]
  split
  · cases st.edges[s]? <;> rfl
  · rfl

theorem IsRenaming.mayReduce (h : t.IsRenaming t' π φ) (lhs s : Symbol) :
    t'.mayReduce lhs s = t.mayReduce lhs s := by
  simp only [TableSource.mayReduce, h.follow_eq, h.options_eq]

theorem IsRenaming.reduction? (h : t.IsRenaming t' π φ) (s : Symbol) (i : Item) :
    t'.reduction? s (i.rename π) = (t.reduction? s i).map π := by
  ext id
  simp only [Option.map_eq_some_iff, reduction?_eq_some_iff, Item.lhs?_rename h.automaton.grammar,
    Item.isComplete_rename h.automaton.grammar, h.mayReduce]
  constructor
  · rintro ⟨rfl, hrest⟩
    exact ⟨i.production, ⟨rfl, hrest⟩, rfl⟩
  · rintro ⟨_, ⟨rfl, hrest⟩, rfl⟩
    exact ⟨rfl, hrest⟩

theorem IsRenaming.reductions (h : t.IsRenaming t' π φ) (hst : st.IsRenaming st' π φ) (s : Symbol) :
    (t'.reductions st' s).Perm ((t.reductions st s).map (Action.rename π φ)) := by
  have hfound : (st.items.toList.map (Item.rename π)).filterMap (t'.reduction? s) =
      (st.items.toList.filterMap (t.reduction? s)).map π := by
    rw [List.filterMap_map, List.map_filterMap]
    exact List.filterMap_congr fun i _ => h.reduction? s i
  have hperm := (ItemSet.toList_rename_perm π st.items).filterMap (t'.reduction? s)
  rw [hfound, ← hst.items_eq] at hperm
  have hnamed := hperm.map Action.reduce
  rw [List.map_map] at hnamed
  rw [TableSource.reductions, TableSource.reductions, List.map_map]
  exact hnamed

theorem IsRenaming.acceptance (h : t.IsRenaming t' π φ) (hst : st.IsRenaming st' π φ) (s : Symbol) :
    t'.acceptance st' s = (t.acceptance st s).map (Action.rename π φ) := by
  have hfinal : t'.automaton.finalItem = t.automaton.finalItem.rename π :=
    congrArg (Item.mk · 1) h.automaton.grammar.augmented_eq.symm
  simp only [TableSource.acceptance, hfinal, hst.items_eq, ItemSet.rename_mem_rename_iff]
  split <;> rfl

theorem IsRenaming.candidatesIn (h : t.IsRenaming t' π φ) (hst : st.IsRenaming st' π φ)
    (s : Symbol) :
    (t'.candidatesIn st' s).Perm ((t.candidatesIn st s).map (Action.rename π φ)) := by
  rw [TableSource.candidatesIn, TableSource.candidatesIn, h.shifts hst, h.acceptance hst,
    List.map_append, List.map_append]
  exact ((h.reductions hst s).append_left _).append_right _

/-- **The candidates of a cell keep to the names**, and so does the refusal of a lookahead. -/
theorem IsRenaming.candidates (h : t.IsRenaming t' π φ) (hid : id < t.automaton.size) (s : Symbol) :
    AreRenamed π φ (t.candidates id s) (t'.candidates (φ id) s) := by
  have hst : t.automaton.state? id = some t.automaton.states[id] := List.getElem?_eq_getElem hid
  obtain ⟨st', hst', hrenaming⟩ := h.automaton.exists_state? hst
  rw [TableSource.candidates, TableSource.candidates, hst, hst', h.terminals_eq]
  dsimp only
  split
  · exact .answered (h.candidatesIn hrenaming s)
  · exact .refused _

/-! ## Conflicts -/

theorem IsConflict.lt_size {s : Symbol} (h : t.IsConflict id s) : id < t.automaton.size := by
  obtain ⟨found, hfound, -⟩ := h
  obtain ⟨st, hst, -⟩ := candidates_eq_ok_iff.1 hfound
  exact (List.getElem?_eq_some_iff.1 hst).1

theorem IsRenaming.isConflict_iff (h : t.IsRenaming t' π φ) (hid : id < t.automaton.size)
    (s : Symbol) : t'.IsConflict (φ id) s ↔ t.IsConflict id s := by
  have hcell := h.candidates hid s
  unfold IsConflict
  generalize t.candidates id s = r, t'.candidates (φ id) s = r' at hcell ⊢
  cases hcell with
  | refused e => simp
  | answered hperm => simp [hperm.length_eq]

theorem ListsConflicts.mem_cells_iff {conflicts : List Conflict} (h : t.ListsConflicts conflicts)
    {cell : StateId × Symbol} : cell ∈ conflicts.map (fun c => (c.state, c.lookahead)) ↔
      t.IsConflict cell.1 cell.2 := by
  rw [List.mem_map]
  constructor
  · rintro ⟨c, hc, rfl⟩
    exact ⟨c.candidates, (h.mem_iff c).1 hc⟩
  · rintro ⟨found, hfound⟩
    exact ⟨⟨cell.1, cell.2, found⟩, (h.mem_iff _).2 hfound, rfl⟩

/-- The cells with conflicts are the same under other names, so there are as many. -/
theorem IsRenaming.length_conflicts_eq {conflicts conflicts' : List Conflict}
    (h : t.IsRenaming t' π φ) (hlists : t.ListsConflicts conflicts)
    (hlists' : t'.ListsConflicts conflicts') : conflicts'.length = conflicts.length := by
  have hinj : ∀ cell ∈ conflicts.map (fun c => (c.state, c.lookahead)),
      ∀ other ∈ conflicts.map (fun c => (c.state, c.lookahead)),
        (φ cell.1, cell.2) = (φ other.1, other.2) → cell = other := by
    intro cell hcell other hother he
    obtain ⟨hstate, hlookahead⟩ := Prod.mk.inj he
    have hlt := (hlists.mem_cells_iff.1 hcell).lt_size
    have hlt' := (hlists.mem_cells_iff.1 hother).lt_size
    exact Prod.ext (h.automaton.bijOn.injOn hlt hlt' hstate) hlookahead
  have hperm : (conflicts'.map fun c => (c.state, c.lookahead)).Perm
      ((conflicts.map fun c => (c.state, c.lookahead)).map fun cell => (φ cell.1, cell.2)) := by
    refine (List.perm_ext_iff_of_nodup hlists'.nodup (hlists.nodup.map_on hinj)).2 fun cell => ?_
    rw [hlists'.mem_cells_iff, List.mem_map]
    constructor
    · intro hcell
      obtain ⟨id, hid, hφ⟩ := h.automaton.bijOn.surjOn hcell.lt_size
      refine ⟨(id, cell.2), ?_, by rw [hφ]⟩
      rw [hlists.mem_cells_iff, ← h.isConflict_iff hid, hφ]
      exact hcell
    · rintro ⟨other, hother, rfl⟩
      have hconflict := hlists.mem_cells_iff.1 hother
      exact (h.isConflict_iff hconflict.lt_size _).2 hconflict
  simpa only [List.length_map] using hperm.length_eq

end TableSource

/-! ## Tables -/

namespace ActionTable

variable {t t' : TableSource}

theorem exists_build_eq_ok_iff : (∃ table, build t = .ok table) ↔
    ((tabulate t).conflicts = [] ∨ t.options.onConflict ≠ .reject) := by
  unfold build enforce
  split
  · next h => simp [h.1, h.2]
  · next h =>
    simp only [Except.ok.injEq, exists_eq', true_iff]
    exact not_and_or.1 h |>.imp_left not_not.1

/-- Without conflicts a cell has at most one candidate. -/
theorem length_candidates_le_one (h : (tabulate t).conflicts = []) {id : StateId} {s : Symbol}
    {found : List Action} (hfound : t.candidates id s = .ok found) : found.length ≤ 1 := by
  refine Nat.le_of_not_lt fun hlen => ?_
  have hmem : ⟨id, s, found⟩ ∈ (tabulate t).conflicts :=
    mem_conflicts_tabulate_iff.2 ⟨hfound, hlen⟩
  simp [h] at hmem

/-- **Without conflicts the tables agree cell by cell**, up to the names. -/
theorem action?_rename (h : t.IsRenaming t' π φ) (hconflicts : (tabulate t).conflicts = [])
    {id : StateId} (hid : id < t.automaton.size) (s : Symbol) :
    (tabulate t').action? (φ id) s =
      ((tabulate t).action? id s).map (Option.map (Action.rename π φ)) := by
  have hcell := h.candidates hid s
  have hlen : ∀ found, t.candidates id s = .ok found → found.length ≤ 1 :=
    fun _ => length_candidates_le_one hconflicts
  rw [action?_tabulate, action?_tabulate]
  generalize t.candidates id s = r, t'.candidates (φ id) s = r' at hcell hlen ⊢
  cases hcell with
  | refused e => rfl
  | @answered found found' hperm =>
    have he : found' = found.map (Action.rename π φ) := by
      match found, hlen found rfl with
      | [], _ => exact List.perm_nil.1 hperm
      | [_], _ => exact List.perm_singleton.1 hperm
    rw [he]
    show Except.ok (List.head? _) = Except.ok (Option.map _ found.head?)
    rw [List.head?_map]

end ActionTable

/-- What two sources of tables have in common that differ in names only: the states, the candidates
    of each cell, how many conflicts there are, whether a table is built, and where there is no
    conflict the actions. -/
structure TableSource.Corresponds (t t' : TableSource) (π : Equiv.Perm ProductionId)
    (φ : StateId → StateId) : Prop where
  automaton : t.automaton.IsRenaming t'.automaton π φ
  candidates : ∀ id < t.automaton.size, ∀ s,
    AreRenamed π φ (t.candidates id s) (t'.candidates (φ id) s)
  length_conflicts : (ActionTable.tabulate t').conflicts.length =
    (ActionTable.tabulate t).conflicts.length
  isBuilt : (∃ table', ActionTable.build t' = .ok table') ↔ ∃ table, ActionTable.build t = .ok table
  conflicts_eq_nil : t.options.onConflict = .reject →
    ∀ table, ActionTable.build t = .ok table → table.conflicts = []
  action?_eq : ∀ table table', ActionTable.build t = .ok table → ActionTable.build t' = .ok table' →
    table.conflicts = [] → ∀ id < t.automaton.size, ∀ s,
      table'.action? (φ id) s = (table.action? id s).map (Option.map (Action.rename π φ))

/-- **Names are all in which the tables differ.** -/
theorem TableSource.IsRenaming.corresponds {t t' : TableSource} (h : t.IsRenaming t' π φ)
    (hterminals : ∀ s ∈ t.terminals, s.isTerminal = true) : t.Corresponds t' π φ := by
  have hcount : (ActionTable.tabulate t').conflicts.length =
      (ActionTable.tabulate t).conflicts.length :=
    h.length_conflicts_eq (ActionTable.listsConflicts_tabulate hterminals)
      (ActionTable.listsConflicts_tabulate (h.terminals_eq ▸ hterminals))
  refine ⟨h.automaton, fun id hid s => h.candidates hid s, hcount, ?_, ?_, ?_⟩
  · rw [ActionTable.exists_build_eq_ok_iff, ActionTable.exists_build_eq_ok_iff, h.options_eq,
      ← List.length_eq_zero_iff, ← List.length_eq_zero_iff, hcount]
  · intro hreject table htable
    have hbuilt := ActionTable.exists_build_eq_ok_iff.1 ⟨table, htable⟩
    rw [ActionTable.eq_tabulate_of_build htable]
    exact hbuilt.resolve_right fun hne => hne hreject
  · intro table table' htable htable' hconflicts id hid s
    obtain rfl := ActionTable.eq_tabulate_of_build htable
    obtain rfl := ActionTable.eq_tabulate_of_build htable'
    exact ActionTable.action?_rename h hconflicts hid s

end ShiftReduce
