import Std.Data.ExtTreeMap
import ShiftReduce.Item.Closure

set_option autoImplicit false

/-! # The LR(0) automaton

The states are the item sets that can be reached with goto from the closure of `[S′ → · S]`. They
are found breadth first and numbered in the order in which they are found, where the symbols that
lead out of a state are taken in the order of its items.

**`Exploration.size_next`**: the search ends, because every state that it puts into the queue takes
one of the finitely many sets of items. -/

namespace ShiftReduce

structure State where
  items : ItemSet
  edges : Std.ExtTreeMap Symbol StateId

/-- The place of the state with the given items. -/
def State.find? (states : List State) (items : ItemSet) : Option StateId :=
  states.findIdx? fun st => st.items = items

theorem State.find?_isNone_iff {states : List State} {items : ItemSet} :
    (State.find? states items).isNone = true ↔ items ∉ states.map State.items := by
  simp only [State.find?, Option.isNone_iff_eq_none, List.findIdx?_eq_none_iff, List.mem_map,
    decide_eq_false_iff_not, not_exists, not_and]

/-- The sublists of a list. -/
def subsets {α : Type} : List α → List (List α)
  | [] => [[]]
  | a :: rest => (subsets rest).map (a :: ·) ++ subsets rest

theorem filter_mem_subsets {α : Type} (l : List α) (p : α → Bool) : l.filter p ∈ subsets l := by
  induction l with
  | nil => simp [subsets]
  | cons a rest ih =>
    simp only [subsets, List.mem_append, List.mem_map, List.filter_cons]
    split
    · exact Or.inl ⟨_, ih, rfl⟩
    · exact Or.inr ih

/-- A set of items of the grammar has those of all items that are in it. -/
theorem ItemSet.ofList_filter_items {g : AugmentedGrammar} {items : ItemSet}
    (h : ∀ i ∈ items, i.InRange g) :
    (.ofList (g.items.filter (· ∈ items)) : ItemSet) = items := by
  refine Std.ExtTreeSet.ext_mem fun i => ?_
  simp only [Std.ExtTreeSet.mem_ofList, List.contains_iff_mem, List.mem_filter,
    AugmentedGrammar.mem_items, decide_eq_true_eq]
  exact ⟨And.right, fun hi => ⟨h i hi, hi⟩⟩

/-! ## Exploration -/

/-- The states found so far, and those whose edges are still to be found. -/
structure Exploration where
  states : List State
  pending : List StateId

namespace Exploration

/-- The state with the given items, which is new and waits if there was none. -/
def intern (s : Exploration) (items : ItemSet) : Exploration × StateId :=
  match State.find? s.states items with
  | some id => (s, id)
  | none => (⟨s.states ++ [⟨items, ∅⟩], s.pending ++ [s.states.length]⟩, s.states.length)

def addEdge (s : Exploration) (source : StateId) (x : Symbol) (target : StateId) : Exploration where
  states := s.states.modify source fun st => { st with edges := st.edges.insert x target }
  pending := s.pending

/-- Finds the edge over `x` out of a state with the given items. -/
def follow (g : AugmentedGrammar) (source : StateId) (items : ItemSet) (s : Exploration)
    (x : Symbol) : Exploration :=
  match items.goto? g x with
  | some target => (s.intern target).1.addEdge source x (s.intern target).2
  | none => s

def expand (g : AugmentedGrammar) (s : Exploration) (id : StateId) : Exploration :=
  match s.states[id]? with
  | some st => (st.items.nextSymbols g).foldl (follow g id st.items) s
  | none => s

/-- Takes the first state off the queue and finds the edges out of it. -/
def next (g : AugmentedGrammar) (s : Exploration) : Option Exploration :=
  match s.pending with
  | [] => none
  | id :: rest => some (expand g { s with pending := rest } id)

theorem next_eq_none_iff {g : AugmentedGrammar} {s : Exploration} :
    s.next g = none ↔ s.pending = [] := by
  unfold next
  split <;> simp_all

theorem exists_of_next {g : AugmentedGrammar} {s t : Exploration} (h : s.next g = some t) :
    ∃ id rest, s.pending = id :: rest ∧ expand g { s with pending := rest } id = t := by
  unfold next at h
  split at h
  · simp at h
  · next id rest hpending => exact ⟨id, rest, hpending, Option.some.inj h⟩

/-- The sets of items that are no state yet, and the states that wait. -/
def size (g : AugmentedGrammar) (s : Exploration) : Nat :=
  (subsets g.items).countP (fun items => (State.find? s.states (.ofList items)).isNone) +
    s.pending.length

theorem items_addEdge (s : Exploration) (source : StateId) (x : Symbol) (target : StateId) :
    (s.addEdge source x target).states.map State.items = s.states.map State.items := by
  refine List.ext_getElem? fun i => ?_
  simp only [addEdge, List.getElem?_map, List.getElem?_modify]
  cases s.states[i]? <;> simp
  split <;> rfl

theorem size_addEdge (g : AugmentedGrammar) (s : Exploration) (source : StateId) (x : Symbol)
    (target : StateId) : (s.addEdge source x target).size g = s.size g := by
  have h (items : ItemSet) : (State.find? (s.addEdge source x target).states items).isNone =
      (State.find? s.states items).isNone := by
    rw [Bool.eq_iff_iff, State.find?_isNone_iff, State.find?_isNone_iff, items_addEdge]
  simp only [size, h]
  rfl

/-- A new state was one of the sets of items that were no state before. -/
theorem size_intern_le {g : AugmentedGrammar} {s : Exploration} {items : ItemSet}
    (h : ∀ i ∈ items, i.InRange g) : (s.intern items).1.size g ≤ s.size g := by
  unfold intern
  split
  · exact Nat.le_refl _
  · next hnone =>
    have hnew : items ∉ s.states.map State.items :=
      State.find?_isNone_iff.1 (by rw [hnone]; rfl)
    have hsub := ItemSet.ofList_filter_items h
    -- The items of the new state, listed as a sublist of all items, are no longer without a state.
    have hlt := countP_lt_countP
      (p := fun l => (State.find? (s.states ++ [⟨items, ∅⟩]) (.ofList l)).isNone)
      (q := fun l => (State.find? s.states (.ofList l)).isNone) (l := subsets g.items)
      (fun l _ => by
        rw [State.find?_isNone_iff, State.find?_isNone_iff, List.map_append, List.mem_append]
        exact fun hl hm => hl (Or.inl hm))
      (filter_mem_subsets g.items (· ∈ items))
      (by
        rw [← Bool.not_eq_true, State.find?_isNone_iff, hsub]
        simp)
      (by rw [State.find?_isNone_iff, hsub]; exact hnew)
    simp only [size, List.length_append, List.length_singleton]
    omega

theorem size_follow_le (g : AugmentedGrammar) (source : StateId) (items : ItemSet)
    (s : Exploration) (x : Symbol) : (follow g source items s x).size g ≤ s.size g := by
  unfold follow
  split
  · next target h =>
    rw [size_addEdge]
    exact size_intern_le (ItemSet.inRange_goto? h)
  · exact Nat.le_refl _

theorem size_expand_le (g : AugmentedGrammar) (s : Exploration) (id : StateId) :
    (s.expand g id).size g ≤ s.size g := by
  unfold expand
  split
  · next st h =>
    clear h
    generalize st.items.nextSymbols g = xs
    induction xs generalizing s with
    | nil => exact Nat.le_refl _
    | cons x rest ih => exact Nat.le_trans (ih _) (size_follow_le g id st.items s x)
  · exact Nat.le_refl _

theorem size_next {g : AugmentedGrammar} {s t : Exploration} (h : s.next g = some t) :
    t.size g < s.size g := by
  obtain ⟨id, rest, hpending, rfl⟩ := exists_of_next h
  refine Nat.lt_of_le_of_lt (size_expand_le g _ id) ?_
  simp [size, hpending]

/-- Finds edges until no state waits. -/
def loop (g : AugmentedGrammar) : Loop Exploration where
  next := next g
  size := size g
  size_next := size_next

/-- The closure of `[S′ → · S]` as the only state. -/
def initial (g : AugmentedGrammar) : Exploration where
  states := [⟨ItemSet.closure g {⟨g.augmented, 0⟩}, ∅⟩]
  pending := [0]

end Exploration

/-! ## Automata -/

structure Automaton where
  grammar : AugmentedGrammar
  states : List State

namespace Automaton

def ofGrammar (g : AugmentedGrammar) : Automaton where
  grammar := g
  states := ((Exploration.loop g).run (.initial g)).states

theorem ofGrammar_eq {g : AugmentedGrammar} {n : Nat}
    (h : (Exploration.loop g).next ((Exploration.loop g).after n (.initial g)) = none) :
    ofGrammar g = ⟨g, ((Exploration.loop g).after n (.initial g)).states⟩ := by
  rw [ofGrammar, Loop.run_eq_after h]

/-- The state in which everything begins. -/
def initial : StateId :=
  0

def size (a : Automaton) : Nat :=
  a.states.length

def state? (a : Automaton) (id : StateId) : Option State :=
  a.states[id]?

/-- The state whose items are these and no others. -/
def find? (a : Automaton) (items : ItemSet) : Option StateId :=
  State.find? a.states items

def goto? (a : Automaton) (id : StateId) (s : Symbol) : Option StateId := do
  (← a.state? id).edges[s]?

/-- The edges out of a state, in the order of their symbols. -/
def edges (a : Automaton) (id : StateId) : List (Symbol × StateId) :=
  match a.state? id with
  | some st => st.edges.toList
  | none => []

def edgeCount (a : Automaton) : Nat :=
  total (·.edges.size) a.states

/-- Whether the state exists and its items predict no further ones. -/
def isClosed (a : Automaton) (id : StateId) : Bool :=
  (a.state? id).any fun st => st.items.closure a.grammar = st.items

/-- The item `[S′ → S ·]`. -/
def finalItem (a : Automaton) : Item :=
  ⟨a.grammar.augmented, 1⟩

/-- The first state with the item `[S′ → S ·]`. -/
def accepting? (a : Automaton) : Option StateId :=
  a.states.findIdx? fun st => a.finalItem ∈ st.items

end Automaton

end ShiftReduce
