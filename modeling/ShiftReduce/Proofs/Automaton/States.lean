import ShiftReduce.Proofs.Automaton.Path

set_option autoImplicit false

/-! # The states are the item sets that goto reaches

While states are made and edges are put in, the item sets of the states stay different from each
other, and each of them is reached from `[S′ → · S]` by goto. When nothing waits, every state has
the edges that goto gives it, so no set that is reached is missing.

**`Automaton.isCanonical_ofGrammar`**: the automaton is the canonical collection of its grammar. -/

namespace ShiftReduce

variable {g : AugmentedGrammar} {items target : ItemSet} {x : Symbol}

namespace ItemSet

/-- Whether the items come from the closure of `[S′ → · S]` by applying goto finitely often. -/
def IsReachable (g : AugmentedGrammar) : ItemSet → Prop :=
  Relation.ReflTransGen (fun items target => ∃ x, goto? g items x = some target)
    (closure g {⟨g.augmented, 0⟩})

theorem IsReachable.goto (h : IsReachable g items) (hx : goto? g items x = some target) :
    IsReachable g target :=
  h.tail ⟨x, hx⟩

/-- The symbols that goto is applied to make a word, and following it is applying them. -/
theorem isReachable_iff : IsReachable g items ↔ ∃ w, reached? g w = some items := by
  refine ⟨?_, ?_⟩
  · intro h
    induction h with
    | refl => exact ⟨[], reached?_nil g⟩
    | tail _ hstep ih =>
      obtain ⟨w, hw⟩ := ih
      obtain ⟨x, hx⟩ := hstep
      exact ⟨w ++ [x], by rw [reached?_concat, hw, Option.bind_some, hx]⟩
  · rintro ⟨w, hw⟩
    induction w using List.reverseRecOn generalizing items with
    | nil =>
      obtain rfl := Option.some.inj (hw.symm.trans (reached?_nil g))
      exact .refl
    | append_singleton w x ih =>
      obtain ⟨before, hbefore, hgoto⟩ := exists_goto?_of_concat hw
      exact (ih hbefore).goto hgoto

/-- Items that predict nothing new are their own closure. -/
theorem closure_eq_self (h : ∀ i ∈ items, ∀ j ∈ i.predictions g, j ∈ items) :
    closure g items = items := by
  refine Std.ExtTreeSet.ext_mem fun j => ⟨?_, subset_closure⟩
  intro hj
  obtain ⟨i, hi, hleads⟩ := mem_closure_iff.1 hj
  induction hleads with
  | refl => exact hi
  | tail hleads hlast ih => exact h _ (ih (mem_closure_iff.2 ⟨i, hi, hleads⟩)) _ hlast

theorem IsReachable.closure_eq_self (h : IsReachable g items) : closure g items = items := by
  obtain ⟨w, hw⟩ := isReachable_iff.1 h
  exact ItemSet.closure_eq_self fun _ hi _ hj => mem_reached?_of_mem_predictions hw hi hj

theorem IsReachable.inRange (h : IsReachable g items) : ∀ i ∈ items, i.InRange g := by
  obtain ⟨w, hw⟩ := isReachable_iff.1 h
  exact fun i hi => inRange_of_mem_reached? hw hi

/-- What the items predict is among them. -/
theorem IsReachable.mem_of_mem_predictions (h : IsReachable g items) {i j : Item} (hi : i ∈ items)
    (hj : j ∈ i.predictions g) : j ∈ items := by
  rw [← h.closure_eq_self] at hi ⊢
  exact predictions_subset_closure hi hj

end ItemSet

/-- Among states with different items, the state with given items is the one that has them. -/
theorem State.find?_eq_some_iff {states : List State} {id : StateId}
    (h : (states.map State.items).Nodup) :
    State.find? states items = some id ↔ states[id]?.map State.items = some items := by
  rw [State.find?, List.findIdx?_eq_some_iff_getElem, ← List.getElem?_map,
    List.getElem?_eq_some_iff]
  refine ⟨?_, ?_⟩
  · rintro ⟨hlt, heq, -⟩
    exact ⟨by simpa using hlt, by simpa using heq⟩
  · rintro ⟨hlt, heq⟩
    refine ⟨by simpa using hlt, by simpa using heq, ?_⟩
    -- An earlier state with these items would be the same one.
    intro other hother hitems
    have hsame : (states.map State.items)[other] = (states.map State.items)[id] := by
      rw [heq]
      simpa using hitems
    exact absurd ((List.getElem_inj h).1 hsame) (Nat.ne_of_lt hother)

/-! ## What the exploration keeps -/

namespace Exploration

variable {s : Exploration}

/-- The states have different items, and goto reaches the items of each. -/
structure Discovered (g : AugmentedGrammar) (s : Exploration) : Prop where
  nodup : (s.states.map State.items).Nodup
  isReachable : ∀ st ∈ s.states, st.items.IsReachable g

theorem Discovered.intern (h : Discovered g s) (hitems : items.IsReachable g) :
    Discovered g (s.intern items).1 := by
  unfold Exploration.intern
  split
  · exact h
  · next hnone =>
    have hnew : items ∉ s.states.map State.items := State.find?_isNone_iff.1 (by rw [hnone]; rfl)
    refine ⟨?_, ?_⟩
    · rw [List.map_append]
      exact List.nodup_append.2 ⟨h.nodup, by simp, by simpa using hnew⟩
    · intro st hst
      rcases List.mem_append.1 hst with hst | hst
      · exact h.isReachable st hst
      · obtain rfl := List.mem_singleton.1 hst
        exact hitems

theorem Discovered.addEdge (h : Discovered g s) (source : StateId) (x : Symbol)
    (target : StateId) : Discovered g (s.addEdge source x target) := by
  refine ⟨by rw [items_addEdge]; exact h.nodup, ?_⟩
  intro st hst
  have hmem : st.items ∈ s.states.map State.items := by
    rw [← s.items_addEdge source x target]
    exact List.mem_map_of_mem hst
  obtain ⟨old, hold, hitems⟩ := List.mem_map.1 hmem
  exact hitems ▸ h.isReachable old hold

theorem Discovered.follow (h : Discovered g s) (hitems : items.IsReachable g) (source : StateId)
    (x : Symbol) : Discovered g (follow g source items s x) := by
  unfold Exploration.follow
  split
  · next target htarget => exact (h.intern (hitems.goto htarget)).addEdge source x _
  · exact h

theorem Discovered.foldl_follow (h : Discovered g s) (hitems : items.IsReachable g)
    (source : StateId) (xs : List Symbol) :
    Discovered g (xs.foldl (Exploration.follow g source items) s) := by
  induction xs generalizing s with
  | nil => exact h
  | cons x rest ih => exact ih (h.follow hitems source x)

theorem Discovered.next {t : Exploration} (h : Discovered g s) (ht : s.next g = some t) :
    Discovered g t := by
  obtain ⟨id, rest, -, rfl⟩ := exists_of_next ht
  have hrest : Discovered g { s with pending := rest } := ⟨h.nodup, h.isReachable⟩
  unfold expand
  split
  · next st hst =>
    exact hrest.foldl_follow (h.isReachable st (List.mem_of_getElem? hst)) id _
  · exact hrest

theorem discovered_initial (g : AugmentedGrammar) : Discovered g (initial g) := by
  refine ⟨by simp [initial], ?_⟩
  intro st hst
  obtain rfl := List.mem_singleton.1 hst
  exact .refl

theorem discovered_run (g : AugmentedGrammar) : Discovered g ((loop g).run (initial g)) :=
  (loop g).run_induction (fun _ _ ht h => h.next ht) (discovered_initial g)

end Exploration

/-! ## The states of the automaton -/

namespace Automaton

theorem items?_eq_some_iff {a : Automaton} {id : StateId} :
    a.items? id = some items ↔ ∃ st, a.states[id]? = some st ∧ st.items = items :=
  Option.map_eq_some_iff

theorem lt_size_of_items? {a : Automaton} {id : StateId} (h : a.items? id = some items) :
    id < a.size := by
  obtain ⟨st, hst, -⟩ := items?_eq_some_iff.1 h
  exact (List.getElem?_eq_some_iff.1 hst).1

theorem exists_items?_of_lt {a : Automaton} {id : StateId} (h : id < a.size) :
    ∃ items, a.items? id = some items :=
  ⟨_, items?_eq_some_iff.2 ⟨_, List.getElem?_eq_getElem h, rfl⟩⟩

theorem exists_items?_iff :
    (∃ id, (ofGrammar g).items? id = some items) ↔ items.IsReachable g := by
  refine ⟨?_, ?_⟩
  · rintro ⟨id, h⟩
    obtain ⟨st, hst, rfl⟩ := items?_eq_some_iff.1 h
    exact (Exploration.discovered_run g).isReachable st (List.mem_of_getElem? hst)
  · intro h
    obtain ⟨w, hw⟩ := ItemSet.isReachable_iff.1 h
    obtain ⟨id, -, hid⟩ := path?_of_reached? hw
    exact ⟨id, hid⟩

/-- The items of a state are items of the grammar. -/
theorem inRange_of_items? {id : StateId} (h : (ofGrammar g).items? id = some items) :
    ∀ i ∈ items, i.InRange g :=
  (exists_items?_iff.1 ⟨id, h⟩).inRange

theorem find?_eq_some_iff {id : StateId} :
    (ofGrammar g).find? items = some id ↔ (ofGrammar g).items? id = some items :=
  State.find?_eq_some_iff (Exploration.discovered_run g).nodup

theorem items?_inj {id other : StateId} (h : (ofGrammar g).items? id = some items)
    (hother : (ofGrammar g).items? other = some items) : id = other :=
  Option.some.inj ((find?_eq_some_iff.2 h).symm.trans (find?_eq_some_iff.2 hother))

/-- The state that accepts is the one that the start symbol leads to, which exists. -/
theorem accepting?_ofGrammar (g : AugmentedGrammar) :
    ∃ id, (ofGrammar g).accepting? = some id ∧ (ofGrammar g).path? initial [g.start] = some id := by
  obtain ⟨items, hreached, hitem⟩ := ItemSet.exists_reached?_start g
  obtain ⟨id, hpath, hid⟩ := path?_of_reached? hreached
  obtain ⟨st, hst, rfl⟩ := items?_eq_some_iff.1 hid
  obtain ⟨hlt, rfl⟩ := List.getElem?_eq_some_iff.1 hst
  refine ⟨id, List.findIdx?_eq_some_iff_getElem.2 ⟨hlt, decide_eq_true hitem, ?_⟩, hpath⟩
  intro other hother hfinal
  -- A state before it with the final item is where the start symbol leads, too.
  have hitems : (ofGrammar g).items? other = some (ofGrammar g).states[other].items :=
    items?_eq_some_iff.2 ⟨_, List.getElem?_eq_getElem _, rfl⟩
  obtain ⟨w, hw⟩ := ItemSet.isReachable_iff.1 (exists_items?_iff.1 ⟨other, hitems⟩)
  obtain rfl := (ItemSet.final_mem_reached?_iff hw).1 (of_decide_eq_true hfinal)
  rw [Option.some.inj (hw.symm.trans hreached)] at hitems
  exact absurd (items?_inj hitems hid) (Nat.ne_of_lt hother)

/-! ## Edges -/

section Edges

variable {a : Automaton} {id source target : StateId} {before : ItemSet}

/-- The states have different items, and the edges between them are those of goto. -/
structure IsGotoGraph (a : Automaton) : Prop where
  initial : a.items? initial = some (ItemSet.start a.grammar)
  inj : ∀ id other items, a.items? id = some items → a.items? other = some items → id = other
  items?_goto? : ∀ id items, a.items? id = some items → ∀ x,
    (a.goto? id x).map a.items? = (items.goto? a.grammar x).map some

theorem isGotoGraph_ofGrammar (g : AugmentedGrammar) : (ofGrammar g).IsGotoGraph where
  initial := items?_initial g
  inj _ _ _ := items?_inj
  items?_goto? _ _ := items?_goto?

/-- Edges come from states. -/
theorem exists_items?_of_goto? (h : a.goto? source x = some target) :
    ∃ before, a.items? source = some before := by
  rw [goto?, Option.bind_eq_bind, Option.bind_eq_some_iff] at h
  obtain ⟨st, hst, -⟩ := h
  exact ⟨st.items, by rw [items?, hst, Option.map_some]⟩

theorem goto?_of_items?_eq_none (h : a.items? source = none) : a.goto? source x = none := by
  cases hx : a.goto? source x with
  | none => rfl
  | some target =>
    obtain ⟨before, hbefore⟩ := exists_items?_of_goto? hx
    nomatch h.symm.trans hbefore

/-- There is an edge exactly to the state that has the items to which goto leads. -/
theorem IsGotoGraph.goto?_eq_some_iff (ha : a.IsGotoGraph) (hid : a.items? id = some before) :
    a.goto? id x = some target ↔
      ∃ items, before.goto? a.grammar x = some items ∧ a.items? target = some items := by
  have hedge := ha.items?_goto? id before hid x
  constructor
  · intro h
    rw [h, Option.map_some, eq_comm, Option.map_eq_some_iff] at hedge
    obtain ⟨items, hgoto, hitems⟩ := hedge
    exact ⟨items, hgoto, hitems.symm⟩
  · rintro ⟨items, hgoto, hitems⟩
    rw [hgoto, Option.map_some, Option.map_eq_some_iff] at hedge
    obtain ⟨other, h, hother⟩ := hedge
    rw [h, ha.inj other target items hother hitems]

theorem IsGotoGraph.goto?_eq_none_iff (ha : a.IsGotoGraph) (hid : a.items? id = some before) :
    a.goto? id x = none ↔ before.goto? a.grammar x = none := by
  have hedge := ha.items?_goto? id before hid x
  rw [← Option.map_eq_none_iff (f := a.items?), hedge, Option.map_eq_none_iff]

/-- An edge leads from a state to a state, and its items are those that goto gives. -/
theorem IsGotoGraph.exists_of_goto? (ha : a.IsGotoGraph) (h : a.goto? source x = some target) :
    ∃ before items, a.items? source = some before ∧ a.items? target = some items ∧
      before.goto? a.grammar x = some items := by
  obtain ⟨before, hbefore⟩ := exists_items?_of_goto? h
  obtain ⟨items, hgoto, hitems⟩ := (ha.goto?_eq_some_iff hbefore).1 h
  exact ⟨before, items, hbefore, hitems, hgoto⟩

end Edges

/-! ## The canonical collection -/

/-- Whether the states are the item sets that goto reaches, once each and closed, and the edges are
    goto between them. -/
structure IsCanonical (a : Automaton) : Prop where
  initial : a.items? initial = some (ItemSet.closure a.grammar {⟨a.grammar.augmented, 0⟩})
  state : ∀ items, (∃ id, a.items? id = some items) ↔ ItemSet.IsReachable a.grammar items
  find : ∀ items id, a.find? items = some id ↔ a.items? id = some items
  goto_none : ∀ id items, a.items? id = some items →
    ∀ x, a.goto? id x = none ↔ ItemSet.goto? a.grammar items x = none
  goto_some : ∀ id items, a.items? id = some items → ∀ x target, a.goto? id x = some target →
    target < a.size ∧ a.items? target = ItemSet.goto? a.grammar items x
  isClosed : ∀ id < a.size, a.isClosed id = true

theorem isClosed_of_items? {id : StateId} (h : (ofGrammar g).items? id = some items) :
    (ofGrammar g).isClosed id = true := by
  obtain ⟨st, hst, rfl⟩ := items?_eq_some_iff.1 h
  have hclosed := (exists_items?_iff.1 ⟨id, h⟩).closure_eq_self
  exact (Option.any_eq_true _ _).2 ⟨st, hst, decide_eq_true hclosed⟩

theorem goto?_eq_none_iff {id : StateId} (h : (ofGrammar g).items? id = some items) :
    (ofGrammar g).goto? id x = none ↔ items.goto? g x = none :=
  (isGotoGraph_ofGrammar g).goto?_eq_none_iff h

theorem lt_size_of_goto? {id target : StateId} (h : (ofGrammar g).items? id = some items)
    (hx : (ofGrammar g).goto? id x = some target) :
    target < (ofGrammar g).size ∧ (ofGrammar g).items? target = items.goto? g x := by
  obtain ⟨next, hgoto, hnext⟩ := ((isGotoGraph_ofGrammar g).goto?_eq_some_iff h).1 hx
  exact ⟨lt_size_of_items? hnext, hnext.trans hgoto.symm⟩

/-- **The automaton of a grammar is its canonical collection**: the item sets that goto reaches from
    `[S′ → · S]`, each of them closed and no two of them equal, and goto between them. -/
theorem isCanonical_ofGrammar (g : AugmentedGrammar) : (ofGrammar g).IsCanonical where
  initial := items?_initial g
  state _ := exists_items?_iff
  find _ _ := find?_eq_some_iff
  goto_none _ _ h _ := goto?_eq_none_iff h
  goto_some _ _ h _ _ hx := lt_size_of_goto? h hx
  isClosed id hid := by
    obtain ⟨st, hst⟩ : ∃ st, (ofGrammar g).states[id]? = some st :=
      ⟨_, List.getElem?_eq_getElem hid⟩
    exact isClosed_of_items? (items?_eq_some_iff.2 ⟨st, hst, rfl⟩)

end Automaton

end ShiftReduce
