import ShiftReduce.Item
import ShiftReduce.Loop

set_option autoImplicit false

/-! # Closure and goto

The closure of an item set adds the initial items of every nonterminal that stands after a dot,
until nothing new appears. Moving the dots of a set over a symbol and closing the result is the goto
function.

**`ItemSet.Closing.size_next`**: the worklist of items ends, since what it puts into the queue is
no longer missing from the set.
**`ItemSet.inRange_goto?`**: what goto leads to are items of the grammar. -/

namespace ShiftReduce

namespace ItemSet

/-- The items found so far, and those of them whose predictions are still to be added. -/
structure Closing where
  items : ItemSet
  queue : List Item

namespace Closing

def next (g : AugmentedGrammar) (s : Closing) : Option Closing :=
  match s.queue with
  | [] => none
  | i :: rest =>
    let fresh := (i.predictions g).filter (· ∉ s.items)
    some ⟨s.items.insertMany fresh, rest ++ fresh⟩

theorem next_eq_none_iff {g : AugmentedGrammar} {s : Closing} :
    s.next g = none ↔ s.queue = [] := by
  unfold next
  split <;> simp_all

/-- A round takes an item off the queue, and what is new of its predictions waits. -/
theorem exists_of_next {g : AugmentedGrammar} {s t : Closing} (h : s.next g = some t) :
    ∃ i rest, s.queue = i :: rest ∧
      t = ⟨s.items.insertMany ((i.predictions g).filter (· ∉ s.items)),
        rest ++ (i.predictions g).filter (· ∉ s.items)⟩ := by
  unfold next at h
  split at h
  · simp at h
  · next i rest hq => exact ⟨i, rest, hq, (Option.some.inj h).symm⟩

/-- The initial items that are not there yet, and the items that wait. -/
def size (g : AugmentedGrammar) (s : Closing) : Nat :=
  (List.range (g.augmented + 1)).countP (fun id => ⟨id, 0⟩ ∉ s.items) + s.queue.length

theorem dot_of_mem_predictions {g : AugmentedGrammar} {i j : Item} (h : j ∈ i.predictions g) :
    j.dot = 0 ∧ j.production < g.augmented + 1 := by
  unfold Item.predictions at h
  split at h
  · split at h
    · obtain ⟨⟨id, p⟩, hp, rfl⟩ := List.mem_map.1 h
      exact ⟨rfl, AugmentedGrammar.lt_of_mem_productionsOf hp⟩
    · simp at h
  · simp at h

theorem nodup_predictions (g : AugmentedGrammar) (i : Item) :
    ((i.predictions g).map Item.production).Nodup := by
  unfold Item.predictions
  split
  · split
    · simpa [Function.comp_def] using g.nodup_productionsOf _
    · simp
  · simp

/-- What is new in the set is counted out of what was missing. -/
theorem size_next {g : AugmentedGrammar} {s t : Closing} (h : s.next g = some t) :
    t.size g < s.size g := by
  obtain ⟨i, rest, hq, rfl⟩ := exists_of_next h
  let fresh := (i.predictions g).filter (· ∉ s.items)
  let left := (List.range (g.augmented + 1)).filter fun id => ⟨id, 0⟩ ∉ s.items.insertMany fresh
  let before := (List.range (g.augmented + 1)).filter fun id => ⟨id, 0⟩ ∉ s.items
  have hfresh : ∀ j ∈ fresh, j.dot = 0 ∧ j.production < g.augmented + 1 ∧ j ∉ s.items :=
    fun j hj => by
      obtain ⟨hj, hn⟩ := List.mem_filter.1 hj
      exact ⟨(dot_of_mem_predictions hj).1, (dot_of_mem_predictions hj).2, by simpa using hn⟩
  -- What is still missing afterwards and what is new were all missing before, each of them once.
  have hnodup : (left ++ fresh.map Item.production).Nodup := by
    refine List.nodup_append.2 ⟨List.nodup_range.filter _, ?_, ?_⟩
    · exact (nodup_predictions g i).sublist (List.filter_sublist.map _)
    · intro id hid id' hid' he
      obtain ⟨j, hj, hje⟩ := List.mem_map.1 hid'
      have hid := (List.mem_filter.1 hid).2
      rw [he, ← hje] at hid
      have : j = ⟨j.production, 0⟩ := by
        rw [← (hfresh j hj).1]
      simp only [decide_eq_true_eq, Std.ExtTreeSet.mem_insertMany_list, not_or,
        List.contains_iff_mem] at hid
      exact hid.2 (this ▸ hj)
  have hsub : left ++ fresh.map Item.production ⊆ before := by
    intro id hid
    rcases List.mem_append.1 hid with hid | hid
    · obtain ⟨hr, hid⟩ := List.mem_filter.1 hid
      refine List.mem_filter.2 ⟨hr, ?_⟩
      simp only [decide_eq_true_eq, Std.ExtTreeSet.mem_insertMany_list, not_or] at hid
      simpa using hid.1
    · obtain ⟨j, hj, rfl⟩ := List.mem_map.1 hid
      obtain ⟨h0, hr, hn⟩ := hfresh j hj
      refine List.mem_filter.2 ⟨List.mem_range.2 hr, ?_⟩
      have : j = ⟨j.production, 0⟩ := by rw [← h0]
      simpa [← this] using hn
  have hle := hnodup.length_le_of_subset hsub
  simp only [List.length_append, List.length_map] at hle
  simp only [size, hq, List.length_append, List.length_cons, List.countP_eq_length_filter]
  show left.length + (rest.length + fresh.length) < before.length + (rest.length + 1)
  omega

/-- Adds predictions until no item waits. -/
def loop (g : AugmentedGrammar) : Loop Closing where
  next := next g
  size := size g
  size_next := size_next

end Closing

/-- The items together with every item that their dots predict, directly or through others. -/
def closure (g : AugmentedGrammar) (items : ItemSet) : ItemSet :=
  ((Closing.loop g).run ⟨items, items.toList⟩).items

/-! ## Goto -/

/-- The items with their dots moved over `s`, for those that have their dot before it. -/
def advanceOver (g : AugmentedGrammar) (items : ItemSet) (s : Symbol) : ItemSet :=
  .ofList ((items.toList.filter fun i => i.next? g = some s).map Item.advance)

/-- The closure of the items moved over `s`, if there are any. -/
def goto? (g : AugmentedGrammar) (items : ItemSet) (s : Symbol) : Option ItemSet :=
  let moved := advanceOver g items s
  if moved.isEmpty then none else some (closure g moved)

/-- The symbols after dots, in the order of the items. -/
def nextSymbols (g : AugmentedGrammar) (items : ItemSet) : List Symbol :=
  (items.toList.filterMap (·.next? g)).eraseDups

theorem inRange_of_mem_predictions {g : AugmentedGrammar} {i j : Item}
    (h : j ∈ i.predictions g) : j.InRange g := by
  obtain ⟨h0, hlt⟩ := Closing.dot_of_mem_predictions h
  rw [← g.length_productions] at hlt
  refine ⟨g.productions[j.production], ?_, by omega⟩
  rw [g.production?_eq_getElem?, List.getElem?_eq_getElem hlt]

theorem inRange_closure {g : AugmentedGrammar} {items : ItemSet}
    (h : ∀ i ∈ items, i.InRange g) : ∀ i ∈ closure g items, i.InRange g := by
  refine (Closing.loop g).run_induction (P := fun s => ∀ i ∈ s.items, i.InRange g) ?_ h
  intro s t hst hs i hi
  obtain ⟨k, rest, -, rfl⟩ := Closing.exists_of_next hst
  simp only [Std.ExtTreeSet.mem_insertMany_list, List.contains_iff_mem] at hi
  rcases hi with hi | hi
  · exact hs i hi
  · exact inRange_of_mem_predictions (List.mem_filter.1 hi).1

theorem inRange_advanceOver {g : AugmentedGrammar} {items : ItemSet} {s : Symbol} :
    ∀ i ∈ advanceOver g items s, i.InRange g := by
  intro i hi
  simp only [advanceOver, Std.ExtTreeSet.mem_ofList, List.contains_iff_mem, List.mem_map,
    List.mem_filter, decide_eq_true_eq] at hi
  obtain ⟨j, ⟨-, hj⟩, rfl⟩ := hi
  simp only [Item.next?, Option.bind_eq_bind, Option.bind_eq_some_iff] at hj
  obtain ⟨p, hp, hj⟩ := hj
  exact ⟨p, hp, (List.getElem?_eq_some_iff.1 hj).1⟩

theorem inRange_goto? {g : AugmentedGrammar} {items target : ItemSet} {s : Symbol}
    (h : goto? g items s = some target) : ∀ i ∈ target, i.InRange g := by
  simp only [goto?] at h
  split at h
  · simp at h
  · obtain rfl := Option.some.inj h
    exact inRange_closure inRange_advanceOver

end ItemSet

end ShiftReduce
