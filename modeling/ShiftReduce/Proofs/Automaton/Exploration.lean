import ShiftReduce.Automaton
import ShiftReduce.Proofs.Item.Closure

set_option autoImplicit false

/-! # What the exploration finds

States leave the queue in the order of their numbers, so at every moment the states before some
number have all their edges and the later ones have none. While a state is expanded it has its edges
over the symbols that were taken up already. When nothing waits, every state has the edges that goto
gives it.

**`Automaton.items?_goto?`**: following an edge of the automaton is applying goto to the items. -/

namespace ShiftReduce

namespace Exploration

variable {g : AugmentedGrammar} {s : Exploration} {n m : Nat} {done : List Symbol}

/-- The items of a state. -/
def items? (s : Exploration) (id : StateId) : Option ItemSet :=
  s.states[id]?.map State.items

/-! ## New states and edges -/

theorem items?_intern_self (s : Exploration) (items : ItemSet) :
    (s.intern items).1.items? (s.intern items).2 = some items := by
  unfold intern
  split
  · next id h =>
    obtain ⟨hlt, heq, -⟩ := List.findIdx?_eq_some_iff_getElem.1 h
    simpa [items?, List.getElem?_eq_getElem hlt] using heq
  · simp [items?]

/-- A state keeps its number and its items when another set of items is looked up. -/
theorem items?_intern {id : StateId} {items : ItemSet} (h : s.items? id = some items)
    (other : ItemSet) : (s.intern other).1.items? id = some items := by
  unfold intern
  split
  · exact h
  · obtain ⟨st, hst, rfl⟩ := Option.map_eq_some_iff.1 h
    have hlt := (List.getElem?_eq_some_iff.1 hst).1
    simp only [items?, List.getElem?_append_left hlt, hst, Option.map_some]

/-- A state is an old one or the one that was just made, which has no edges. -/
theorem getElem?_states_intern {id : Nat} {st : State} {items : ItemSet}
    (h : (s.intern items).1.states[id]? = some st) :
    s.states[id]? = some st ∨ id = s.states.length ∧ st.edges = ∅ := by
  unfold intern at h
  split at h
  · exact Or.inl h
  · rw [List.getElem?_append] at h
    split at h
    · exact Or.inl h
    · have hid := (List.getElem?_eq_some_iff.1 h).1
      simp only [List.length_singleton] at hid
      have hid : id = s.states.length := by omega
      subst hid
      simp only [Nat.sub_self, List.getElem?_cons_zero, Option.some.injEq] at h
      exact Or.inr ⟨rfl, h ▸ rfl⟩

/-- A new state waits behind those that wait already. -/
theorem pending_intern (h : s.pending = List.range' m (s.states.length - m))
    (hm : m ≤ s.states.length) (items : ItemSet) :
    (s.intern items).1.pending = List.range' m ((s.intern items).1.states.length - m) := by
  unfold intern
  split
  · exact h
  · have hlen : (s.states ++ [(⟨items, ∅⟩ : State)]).length - m = s.states.length - m + 1 := by
      simp only [List.length_append, List.length_singleton]
      omega
    dsimp only
    rw [hlen, List.range'_concat, h]
    congr 2
    omega

theorem items?_addEdge (s : Exploration) (source : StateId) (x : Symbol) (target : StateId) :
    (s.addEdge source x target).items? = s.items? := by
  funext id
  have h := congrArg (fun l => l[id]?) (s.items_addEdge source x target)
  simpa only [items?, List.getElem?_map] using h

theorem getElem?_states_addEdge (s : Exploration) (source : StateId) (x : Symbol)
    (target id : StateId) : (s.addEdge source x target).states[id]? = (s.states[id]?).map
      fun st => if source = id then { st with edges := st.edges.insert x target } else st := by
  simp only [addEdge, List.getElem?_modify]
  cases s.states[id]? with
  | none => rfl
  | some st => by_cases h : source = id <;> simp [h]

theorem items?_follow {id : StateId} {items : ItemSet} (h : s.items? id = some items)
    (source : StateId) (before : ItemSet) (x : Symbol) :
    (follow g source before s x).items? id = some items := by
  unfold follow
  split
  · rw [items?_addEdge]
    exact items?_intern h _
  · exact h

theorem items?_foldl_follow {id : StateId} {items : ItemSet} (h : s.items? id = some items)
    (source : StateId) (before : ItemSet) (xs : List Symbol) :
    (xs.foldl (follow g source before) s).items? id = some items := by
  induction xs generalizing s with
  | nil => exact h
  | cons x rest ih => exact ih (items?_follow h source before x)

/-! ## Progress -/

/-- What the edge over `x` out of a state leads to, while state `n` is expanded and the symbols in
    `done` have been taken up. -/
def expected (g : AugmentedGrammar) (n : Nat) (done : List Symbol) (id : StateId) (items : ItemSet)
    (x : Symbol) : Option ItemSet :=
  if id < n ∨ id = n ∧ x ∈ done then items.goto? g x else none

theorem expected_concat_self (g : AugmentedGrammar) (n : Nat) (done : List Symbol) (items : ItemSet)
    (x : Symbol) : expected g n (done ++ [x]) n items x = items.goto? g x := by
  simp [expected]

/-- Taking up `x` in state `n` changes nothing elsewhere. -/
theorem expected_concat_of_ne {id : StateId} {items : ItemSet} {x y : Symbol}
    (h : ¬(id = n ∧ y = x)) :
    expected g n (done ++ [x]) id items y = expected g n done id items y := by
  simp only [expected, List.mem_append, List.mem_singleton]
  by_cases hid : id = n
  · have hy : y ≠ x := fun hy => h ⟨hid, hy⟩
    simp [hy]
  · simp [hid]

/-- How far the exploration has come: up to state `n`, and up to `done` there. -/
structure Progress (g : AugmentedGrammar) (n : Nat) (done : List Symbol) (s : Exploration) :
    Prop where
  items?_zero : s.items? 0 = some (ItemSet.closure g {⟨g.augmented, 0⟩})
  edges : ∀ id st, s.states[id]? = some st → ∀ x,
    st.edges[x]?.map s.items? = (expected g n done id st.items x).map some

/-- An edge that leads to a state leads to the same items after a set of items is looked up. -/
theorem map_items?_intern {t : Option StateId} {e : Option ItemSet}
    (h : t.map s.items? = e.map some) (other : ItemSet) :
    t.map (s.intern other).1.items? = e.map some := by
  cases t with
  | none => exact h
  | some id =>
    cases e with
    | none => simp at h
    | some items =>
      simp only [Option.map_some, Option.some.injEq] at h ⊢
      exact items?_intern h other

theorem Progress.intern (h : Progress g n done s) (hn : n < s.states.length) (items : ItemSet) :
    Progress g n done (s.intern items).1 := by
  refine ⟨items?_intern h.items?_zero items, ?_⟩
  intro id st hst x
  rcases getElem?_states_intern hst with hold | ⟨rfl, hedges⟩
  · exact map_items?_intern (h.edges id st hold x) items
  · have hnot : ¬(s.states.length < n ∨ s.states.length = n ∧ x ∈ done) := by omega
    simp [hedges, expected, hnot]

/-- Taking up a symbol in state `n`. -/
theorem Progress.follow {items : ItemSet} (h : Progress g n done s) (hn : s.items? n = some items)
    (x : Symbol) : Progress g n (done ++ [x]) (follow g n items s x) := by
  obtain ⟨source, hsource, rfl⟩ := Option.map_eq_some_iff.1 hn
  have hlt := (List.getElem?_eq_some_iff.1 hsource).1
  unfold Exploration.follow
  split
  · next target htarget =>
    have hi := h.intern hlt target
    refine ⟨by rw [items?_addEdge]; exact hi.items?_zero, ?_⟩
    intro id st hst y
    rw [getElem?_states_addEdge] at hst
    obtain ⟨old, hold, rfl⟩ := Option.map_eq_some_iff.1 hst
    rw [items?_addEdge]
    have hedge := hi.edges id old hold y
    by_cases hid : n = id
    · subst hid
      have hitems : old.items = source.items := by
        have hkept := items?_intern hn target
        simpa [items?, hold] using hkept
      simp only [if_true, Std.ExtTreeMap.getElem?_insert]
      by_cases hy : x = y
      · subst hy
        rw [hitems, expected_concat_self, htarget]
        simp [items?_intern_self]
      · rw [expected_concat_of_ne fun hne => hy hne.2.symm, ← hedge]
        simp [hy]
    · simp only [hid, if_false]
      rw [expected_concat_of_ne fun hne => hid hne.1.symm, hedge]
  · next hnone =>
    refine ⟨h.items?_zero, ?_⟩
    intro id st hst y
    rw [h.edges id st hst y]
    by_cases hne : id = n ∧ y = x
    · obtain ⟨rfl, rfl⟩ := hne
      obtain rfl : st = source := by simpa [hsource, eq_comm] using hst
      rw [expected_concat_self, hnone]
      unfold expected
      split
      · rw [hnone]
      · rfl
    · rw [expected_concat_of_ne hne]

/-- What is kept while state `n` is expanded: its items, and the later states in the queue. -/
structure Expanding (g : AugmentedGrammar) (n : Nat) (items : ItemSet) (done : List Symbol)
    (s : Exploration) : Prop extends Progress g n done s where
  items?_eq : s.items? n = some items
  pending_eq : s.pending = List.range' (n + 1) (s.states.length - (n + 1))

theorem Expanding.follow {items : ItemSet} (h : Expanding g n items done s) (x : Symbol) :
    Expanding g n items (done ++ [x]) (follow g n items s x) := by
  refine ⟨h.toProgress.follow h.items?_eq x, items?_follow h.items?_eq n items x, ?_⟩
  obtain ⟨st, hst, -⟩ := Option.map_eq_some_iff.1 h.items?_eq
  have hlt := (List.getElem?_eq_some_iff.1 hst).1
  unfold Exploration.follow
  split
  · simpa [addEdge] using pending_intern h.pending_eq hlt _
  · exact h.pending_eq

theorem Expanding.foldl_follow {items : ItemSet} (h : Expanding g n items done s)
    (xs : List Symbol) :
    Expanding g n items (done ++ xs) (xs.foldl (Exploration.follow g n items) s) := by
  induction xs generalizing done s with
  | nil => simpa using h
  | cons x rest ih =>
    have hrest := ih (h.follow x)
    rwa [List.append_assoc, List.singleton_append] at hrest

/-! ## The loop -/

/-- The exploration at the head of its loop, with state `n` as the next one to be expanded. -/
structure Arrived (g : AugmentedGrammar) (n : Nat) (s : Exploration) : Prop
    extends Progress g n [] s where
  le_length : n ≤ s.states.length
  pending_eq : s.pending = List.range' n (s.states.length - n)

theorem arrived_initial (g : AugmentedGrammar) : Arrived g 0 (initial g) := by
  refine ⟨⟨rfl, ?_⟩, Nat.zero_le _, rfl⟩
  intro id st hst x
  obtain rfl := List.mem_singleton.1 (List.mem_of_getElem? hst)
  simp [expected]

/-- A state whose symbols have all been taken up is done. -/
theorem Progress.succ {items : ItemSet} (h : Progress g n (items.nextSymbols g) s)
    (hn : s.items? n = some items) : Progress g (n + 1) [] s := by
  refine ⟨h.items?_zero, ?_⟩
  intro (id : Nat) st hst x
  rw [h.edges id st hst x]
  have hexpected : expected g n (items.nextSymbols g) id st.items x =
      expected g (n + 1) [] id st.items x := by
    unfold expected
    by_cases hid : id = n
    · subst hid
      obtain rfl : st.items = items := by simpa [items?, hst] using hn
      by_cases hx : x ∈ st.items.nextSymbols g
      · simp [hx]
      · have hnone : st.items.goto? g x = none := by
          rw [ItemSet.goto?_eq_none_iff]
          intro i hi hs
          exact hx (ItemSet.mem_nextSymbols_iff.2 ⟨i, hi, hs⟩)
        simp [hx, hnone]
    · have hlt : id < n ↔ id < n + 1 := by omega
      simp [hid, hlt]
  rw [hexpected]

/-- A round takes state `n` off the queue and takes up its symbols. -/
theorem Arrived.exists_of_next {t : Exploration} (h : Arrived g n s) (ht : s.next g = some t) :
    ∃ st, s.states[n]? = some st ∧
      (st.items.nextSymbols g).foldl (Exploration.follow g n st.items)
        ⟨s.states, List.range' (n + 1) (s.states.length - (n + 1))⟩ = t := by
  obtain ⟨id, rest, hpending, ht⟩ := Exploration.exists_of_next ht
  have hrange := h.pending_eq
  rw [hpending] at hrange
  have hlt : n < s.states.length := by
    rcases Nat.lt_or_ge n s.states.length with hlt | hge
    · exact hlt
    · simp [Nat.sub_eq_zero_of_le hge] at hrange
  have hlen : s.states.length - n = s.states.length - (n + 1) + 1 := by omega
  rw [hlen, List.range'_succ, List.cons.injEq] at hrange
  obtain ⟨rfl, rfl⟩ := hrange
  have hstate : s.states[id]? = some s.states[id] := List.getElem?_eq_getElem hlt
  simp only [expand, hstate] at ht
  exact ⟨s.states[id], hstate, ht⟩

theorem Arrived.next {t : Exploration} (h : Arrived g n s) (ht : s.next g = some t) :
    Arrived g (n + 1) t := by
  obtain ⟨st, hst, rfl⟩ := h.exists_of_next ht
  have hexpanding : Expanding g n st.items []
      ⟨s.states, List.range' (n + 1) (s.states.length - (n + 1))⟩ :=
    ⟨⟨h.items?_zero, h.edges⟩, by simp [items?, hst], rfl⟩
  have hdone := hexpanding.foldl_follow (st.items.nextSymbols g)
  rw [List.nil_append] at hdone
  refine ⟨hdone.toProgress.succ hdone.items?_eq, ?_, hdone.pending_eq⟩
  obtain ⟨_, hlast, -⟩ := Option.map_eq_some_iff.1 hdone.items?_eq
  exact (List.getElem?_eq_some_iff.1 hlast).1

/-- No state waits in the end. -/
theorem pending_run (g : AugmentedGrammar) (s : Exploration) : ((loop g).run s).pending = [] :=
  next_eq_none_iff.1 ((loop g).next_run s)

/-- When no state waits, every state has been expanded. -/
theorem Arrived.eq_length (h : Arrived g n s) (hpending : s.pending = []) :
    n = s.states.length := by
  have hrange := h.pending_eq
  rw [hpending, eq_comm, List.range'_eq_nil_iff] at hrange
  have hle := h.le_length
  omega

theorem exists_arrived_run (g : AugmentedGrammar) :
    ∃ n, Arrived g n ((loop g).run (initial g)) ∧
      n = ((loop g).run (initial g)).states.length := by
  have hrun := (loop g).run_induction (P := fun s => ∃ n, Arrived g n s)
    (fun _ _ hst ⟨n, h⟩ => ⟨n + 1, h.next hst⟩) ⟨0, arrived_initial g⟩
  obtain ⟨n, h⟩ := hrun
  exact ⟨n, h, h.eq_length (pending_run g _)⟩

end Exploration

/-! ## The automaton of a grammar -/

namespace Automaton

/-- The items of a state. -/
def items? (a : Automaton) (id : StateId) : Option ItemSet :=
  (a.state? id).map State.items

variable {g : AugmentedGrammar}

theorem items?_initial (g : AugmentedGrammar) :
    (ofGrammar g).items? initial = some (ItemSet.closure g {⟨g.augmented, 0⟩}) := by
  obtain ⟨n, h, -⟩ := Exploration.exists_arrived_run g
  exact h.items?_zero

/-- An edge leads to the state with the items that goto gives, and without such items there is no
    edge. -/
theorem items?_goto? {id : StateId} {items : ItemSet} (h : (ofGrammar g).items? id = some items)
    (x : Symbol) :
    ((ofGrammar g).goto? id x).map (ofGrammar g).items? = (items.goto? g x).map some := by
  obtain ⟨n, harrived, hn⟩ := Exploration.exists_arrived_run g
  obtain ⟨st, hst, rfl⟩ := Option.map_eq_some_iff.1 h
  have hlt : id < n := by
    rw [hn]
    exact (List.getElem?_eq_some_iff.1 hst).1
  have hedge := harrived.edges id st hst x
  rw [Exploration.expected, if_pos (Or.inl hlt)] at hedge
  rw [← hedge, goto?, hst]
  rfl

end Automaton

end ShiftReduce
