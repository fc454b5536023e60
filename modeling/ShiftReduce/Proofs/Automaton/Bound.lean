import Mathlib.Algebra.GroupWithZero.Nat
import Mathlib.Data.List.Nodup
import ShiftReduce.Proofs.Automaton.States

set_option autoImplicit false

/-! # What the searches take up

The states are numbered in the order in which they begin to wait, and each of them waits once, so
they are taken up in the order of their numbers. The same goes for the items of a closure, which
begin to wait when they are new in the set. How long this takes is bounded for the states by the
sets of items that there are, since the items of different states are different.

**`ItemSet.Closing.perm_taken`**: closing a set takes up every item of the result once.
**`Exploration.taken_eq_range`**: the exploration takes up every state once, in order.
**`Exploration.isBounded`**: both searches stop, and there are few enough states. -/

namespace ShiftReduce

/-! ## Rounds that take something up -/

namespace Loop

variable {σ α : Type} {l : Loop σ} {front : σ → Option α} {s t : σ} {a : α}

/-- What the rounds of a run take up, one thing each, where `front` is what comes next. -/
def taken (l : Loop σ) (front : σ → Option α) (s : σ) : List α :=
  (l.heads s).filterMap front

/-- Whether the loop stops exactly when there is nothing to take up. -/
def Serves (l : Loop σ) (front : σ → Option α) : Prop :=
  ∀ s, l.next s = none ↔ front s = none

theorem Serves.taken_of_next_eq_none (h : l.Serves front) (hs : l.next s = none) :
    l.taken front s = [] := by
  simp [taken, heads_of_next_eq_none hs, (h s).1 hs]

theorem taken_of_next_eq_some (hs : l.next s = some t) (ha : front s = some a) :
    l.taken front s = a :: l.taken front t := by
  simp [taken, heads_of_next_eq_some hs, ha]

theorem Serves.exists_front (h : l.Serves front) (hs : l.next s = some t) :
    ∃ a, front s = some a := by
  rw [← Option.ne_none_iff_exists', ne_eq, ← h s, hs]
  simp

/-- What holds of the start and what was taken up before, and is kept by every round that takes up
    one thing more, holds of the result and all that was taken up. -/
theorem Serves.taken_induction (h : l.Serves front) {P : List α → σ → Prop}
    (keep : ∀ done s t a, l.next s = some t → front s = some a → P done s → P (done ++ [a]) t)
    {done : List α} (hs : P done s) : P (done ++ l.taken front s) (l.run s) := by
  induction s using l.induction_on generalizing done with
  | stop s hstop => rwa [h.taken_of_next_eq_none hstop, List.append_nil, run_of_next_eq_none hstop]
  | step s t ht ih =>
    obtain ⟨a, ha⟩ := h.exists_front ht
    rw [taken_of_next_eq_some ht ha, run_of_next_eq_some ht, List.append_cons]
    exact ih (keep done s t a ht ha hs)

/-- There are as many rounds as things that are taken up. -/
theorem Serves.after_length_taken (h : l.Serves front) (s : σ) :
    l.after (l.taken front s).length s = l.run s := by
  induction s using l.induction_on with
  | stop s hstop => rw [h.taken_of_next_eq_none hstop, run_of_next_eq_none hstop]; rfl
  | step s t ht ih =>
    obtain ⟨a, ha⟩ := h.exists_front ht
    rw [taken_of_next_eq_some ht ha, run_of_next_eq_some ht, List.length_cons, after, ht]
    exact ih

end Loop

/-! ## Items that wait -/

namespace ItemSet.Closing

variable {g : AugmentedGrammar} {s t : Closing} {done : List Item} {i : Item}

theorem serves_loop (g : AugmentedGrammar) : (loop g).Serves fun s => s.queue.head? := by
  intro s
  rw [List.head?_eq_none_iff]
  exact next_eq_none_iff

/-- The items that are taken up in turn while the closure of the items is found. -/
def taken (g : AugmentedGrammar) (items : ItemSet) : List Item :=
  (loop g).taken (fun s => s.queue.head?) ⟨items, items.toList⟩

/-- Whether the items found so far are those that were taken up and those that wait, once each. -/
structure Recorded (done : List Item) (s : Closing) : Prop where
  nodup : (done ++ s.queue).Nodup
  mem_iff : ∀ i, i ∈ done ++ s.queue ↔ i ∈ s.items

theorem recorded_start (items : ItemSet) : Recorded [] ⟨items, items.toList⟩ :=
  ⟨nodup_toList items, fun _ => Std.ExtTreeSet.mem_toList⟩

theorem Recorded.next (h : Recorded done s) (ht : s.next g = some t)
    (hi : s.queue.head? = some i) : Recorded (done ++ [i]) t := by
  obtain ⟨k, rest, hq, rfl⟩ := exists_of_next ht
  rw [hq, List.head?_cons, Option.some.injEq] at hi
  obtain rfl := hi.symm
  have hmoved (fresh : List Item) : done ++ [i] ++ (rest ++ fresh) = done ++ s.queue ++ fresh := by
    simp [hq]
  have hfresh : ((i.predictions g).filter (· ∉ s.items)).Nodup :=
    (List.Nodup.of_map _ (nodup_predictions g i)).filter _
  refine ⟨?_, fun j => ?_⟩
  · rw [hmoved, List.nodup_append]
    refine ⟨h.nodup, hfresh, fun j hj k hk hjk => ?_⟩
    have hnew : k ∉ s.items := of_decide_eq_true (List.mem_filter.1 hk).2
    exact hnew (hjk ▸ (h.mem_iff j).1 hj)
  · rw [hmoved, List.mem_append, h.mem_iff]
    simp only [Std.ExtTreeSet.mem_insertMany_list, List.contains_iff_mem]

theorem recorded_run (g : AugmentedGrammar) (items : ItemSet) :
    Recorded (taken g items) ((loop g).run ⟨items, items.toList⟩) := by
  have hrun := (serves_loop g).taken_induction
    (fun _ _ _ _ ht hi h => Recorded.next h ht hi) (recorded_start items)
  rwa [List.nil_append] at hrun

/-- Every item of the closure is taken up once, and nothing else is. -/
theorem perm_taken (g : AugmentedGrammar) (items : ItemSet) :
    (taken g items).Perm (closure g items).toList := by
  have h := recorded_run g items
  have hnodup := h.nodup
  have hmem := h.mem_iff
  rw [queue_run, List.append_nil] at hnodup hmem
  refine (List.perm_ext_iff_of_nodup hnodup (nodup_toList _)).2 fun i => ?_
  rw [hmem, Std.ExtTreeSet.mem_toList]
  rfl

theorem after_size_closure (g : AugmentedGrammar) (items : ItemSet) :
    (loop g).after (closure g items).size ⟨items, items.toList⟩ =
      (loop g).run ⟨items, items.toList⟩ := by
  rw [← Std.ExtTreeSet.length_toList, ← (perm_taken g items).length_eq]
  exact (serves_loop g).after_length_taken _

end ItemSet.Closing

/-! ## The sets of items that there are -/

/-- In how many places a dot can stand in the right sides of the productions. -/
def AugmentedGrammar.places (g : AugmentedGrammar) : Nat :=
  (g.productions.map fun p => p.right.length + 1).sum

theorem AugmentedGrammar.length_items (g : AugmentedGrammar) : g.items.length = g.places := by
  have hfst : g.productions = g.productions.zipIdx.map Prod.fst := by simp
  rw [places, hfst, List.map_map]
  simp [items, List.length_flatMap, Function.comp_def]

theorem length_subsets {α : Type} (l : List α) : (subsets l).length = 2 ^ l.length := by
  induction l with
  | nil => rfl
  | cons a rest ih =>
    rw [subsets, List.length_append, List.length_map, ih, List.length_cons, Nat.pow_succ]
    omega

namespace Exploration

variable {g : AugmentedGrammar} {s : Exploration}

/-- Different sets of items of the grammar are made from different parts of its items. -/
theorem Discovered.length_le (h : Discovered g s) : s.states.length ≤ 2 ^ g.places := by
  have hsub : s.states.map State.items ⊆ (subsets g.items).map fun items => .ofList items := by
    intro items hitems
    obtain ⟨st, hst, rfl⟩ := List.mem_map.1 hitems
    refine List.mem_map.2 ⟨_, filter_mem_subsets g.items (· ∈ st.items), ?_⟩
    exact ItemSet.ofList_filter_items (h.isReachable st hst).inRange
  calc s.states.length = (s.states.map State.items).length := (List.length_map _).symm
    _ ≤ ((subsets g.items).map fun items => .ofList items).length :=
        h.nodup.length_le_of_subset hsub
    _ = 2 ^ g.places := by rw [List.length_map, length_subsets, g.length_items]

/-! ## States that wait -/

theorem serves_loop (g : AugmentedGrammar) : (loop g).Serves fun s => s.pending.head? := by
  intro s
  rw [List.head?_eq_none_iff]
  exact next_eq_none_iff

/-- The states that are taken up in turn. -/
def taken (g : AugmentedGrammar) : List StateId :=
  (loop g).taken (fun s => s.pending.head?) (initial g)

theorem Arrived.eq_of_head? {n : Nat} {id : StateId} (h : Arrived g n s)
    (hid : s.pending.head? = some id) : id = n := by
  rw [h.pending_eq, List.head?_range'] at hid
  split at hid
  · simp at hid
  · exact (Option.some.inj hid).symm

/-- Whether the states taken up so far are the first ones, in order, and the exploration has arrived
    at the one after them. -/
structure InOrder (g : AugmentedGrammar) (done : List StateId) (s : Exploration) : Prop where
  eq_range : done = List.range done.length
  arrived : Arrived g done.length s

theorem InOrder.next {done : List StateId} {t : Exploration} {id : StateId} (h : InOrder g done s)
    (ht : s.next g = some t) (hid : s.pending.head? = some id) : InOrder g (done ++ [id]) t := by
  obtain rfl := h.arrived.eq_of_head? hid
  refine ⟨?_, ?_⟩
  · rw [List.length_append, List.length_singleton, List.range_succ, ← h.eq_range]
  · rw [List.length_append, List.length_singleton]
    exact h.arrived.next ht

/-- The exploration takes up every state once, and an earlier one before a later one. -/
theorem taken_eq_range (g : AugmentedGrammar) :
    taken g = List.range (Automaton.ofGrammar g).size := by
  have hstart : InOrder g [] (initial g) := ⟨rfl, arrived_initial g⟩
  have hrun := (serves_loop g).taken_induction (fun _ _ _ _ ht hid h => InOrder.next h ht hid) hstart
  have hlen := hrun.arrived.eq_length (pending_run g _)
  rw [List.nil_append] at hrun hlen
  rw [taken, hrun.eq_range, hlen]
  rfl

theorem after_size_ofGrammar (g : AugmentedGrammar) :
    (loop g).after (Automaton.ofGrammar g).size (initial g) = (loop g).run (initial g) := by
  have hlen : (taken g).length = (Automaton.ofGrammar g).size := by
    rw [taken_eq_range, List.length_range]
  rw [← hlen]
  exact (serves_loop g).after_length_taken _

/-- Whether the search for states and the closures in it end: each takes up what it finds once, the
    states in the order of their numbers, and stops then, and all the time the states are different
    from each other and no more than there are sets of dots in the productions. -/
structure IsBounded (g : AugmentedGrammar) : Prop where
  taken_eq : taken g = List.range (Automaton.ofGrammar g).size
  stops : (loop g).next ((loop g).after (Automaton.ofGrammar g).size (initial g)) = none
  different : ∀ s ∈ (loop g).heads (initial g),
    (s.states.map State.items).Nodup ∧ s.states.length ≤ 2 ^ g.places
  size_le : (Automaton.ofGrammar g).size ≤ 2 ^ g.places
  perm_taken : ∀ items, (ItemSet.Closing.taken g items).Perm (items.closure g).toList
  closing_stops : ∀ items : ItemSet, (ItemSet.Closing.loop g).next
    ((ItemSet.Closing.loop g).after (items.closure g).size ⟨items, items.toList⟩) = none

/-- **The search for the states ends**, and so do the closures in it, of whatever items. -/
theorem isBounded (g : AugmentedGrammar) : IsBounded g where
  taken_eq := taken_eq_range g
  stops := by rw [after_size_ofGrammar, Loop.next_run]
  different := by
    intro s hs
    have h := (loop g).forall_mem_heads (fun _ _ ht h => Discovered.next h ht)
      (discovered_initial g) s hs
    exact ⟨h.nodup, h.length_le⟩
  size_le := (discovered_run g).length_le
  perm_taken := ItemSet.Closing.perm_taken g
  closing_stops items := by rw [ItemSet.Closing.after_size_closure, Loop.next_run]

end Exploration

end ShiftReduce
