import Mathlib.Logic.Relation
import ShiftReduce.Item.Closure

set_option autoImplicit false

/-! # Members of closures and goto sets

An item leads to another when a chain of predictions goes from the one to the other. The closure of
a set is what its items lead to, and goto gives what the advanced items lead to. Nothing else about
the worklist is used after this.

**`ItemSet.mem_closure_iff`**: the worklist finds every predicted item and no other.
**`ItemSet.mem_of_goto?_eq_some_iff`**: the same for the items that goto leads to. -/

namespace ShiftReduce

/-- Whether a chain of predictions goes from `i` to `j`. -/
def Item.Leads (g : AugmentedGrammar) : Item → Item → Prop :=
  Relation.ReflTransGen fun i j => j ∈ i.predictions g

namespace Item

variable {g : AugmentedGrammar}

/-- An item predicts the initial items of the productions of the nonterminal after its dot. -/
theorem mem_predictions_iff {i j : Item} :
    j ∈ i.predictions g ↔ j.dot = 0 ∧ ∃ s, i.next? g = some s ∧ j.lhs? g = some s := by
  unfold predictions
  refine ⟨?_, ?_⟩
  · intro h
    split at h
    · next s hs =>
      split at h
      · obtain ⟨⟨id, p⟩, hp, rfl⟩ := List.mem_map.1 h
        exact ⟨rfl, s, hs, lhs?_eq_some_iff.2 ⟨p, AugmentedGrammar.mem_productionsOf_iff.1 hp⟩⟩
      · simp at h
    · simp at h
  · intro h
    obtain ⟨h0, s, hs, hlhs⟩ := h
    obtain ⟨p, hp, hlhs⟩ := lhs?_eq_some_iff.1 hlhs
    rw [hs]
    simp only [Production.isNonterminal_of_lhs? hlhs, if_true]
    refine List.mem_map.2 ⟨(j.production, p), ?_, ?_⟩
    · exact AugmentedGrammar.mem_productionsOf_iff.2 ⟨hp, hlhs⟩
    · rw [← h0]

/-- What an item leads to is the item itself or has its dot at the front. -/
theorem Leads.eq_or_dot_eq_zero {i j : Item} (h : Leads g i j) : i = j ∨ j.dot = 0 := by
  induction h with
  | refl => exact Or.inl rfl
  | tail _ hj _ => exact Or.inr (ItemSet.Closing.dot_of_mem_predictions hj).1

end Item

namespace ItemSet

variable {g : AugmentedGrammar}

/-! ## Closure -/

/-- What holds whenever the worklist is looked at: the set has grown from `start` by predictions
    only, and the items whose predictions may be missing from it are those that wait. -/
structure Closing.Sound (g : AugmentedGrammar) (start : ItemSet) (s : Closing) : Prop where
  start_subset : ∀ i ∈ start, i ∈ s.items
  leads : ∀ j ∈ s.items, ∃ i ∈ start, Item.Leads g i j
  queue_subset : ∀ i ∈ s.queue, i ∈ s.items
  predicted : ∀ i ∈ s.items, i ∉ s.queue → ∀ j ∈ i.predictions g, j ∈ s.items

theorem Closing.sound_next {start : ItemSet} {s t : Closing} (h : s.next g = some t)
    (hs : s.Sound g start) : t.Sound g start := by
  obtain ⟨i, rest, hq, rfl⟩ := exists_of_next h
  have hi : i ∈ s.items := hs.queue_subset i (hq ▸ List.mem_cons_self)
  -- The new set has the old items and the predictions of the item taken off the queue.
  have hmem : ∀ j, j ∈ s.items.insertMany ((i.predictions g).filter (· ∉ s.items)) ↔
      j ∈ s.items ∨ j ∈ i.predictions g := by
    intro j
    simp only [Std.ExtTreeSet.mem_insertMany_list, List.contains_iff_mem, List.mem_filter,
      decide_eq_true_eq]
    by_cases hj : j ∈ s.items <;> simp [hj]
  refine ⟨?_, ?_, ?_, ?_⟩
  · intro j hj
    exact (hmem j).2 (Or.inl (hs.start_subset j hj))
  · intro j hj
    rcases (hmem j).1 hj with hj | hj
    · exact hs.leads j hj
    · obtain ⟨k, hk, hki⟩ := hs.leads i hi
      exact ⟨k, hk, hki.tail hj⟩
  · intro j hj
    rw [hmem]
    rcases List.mem_append.1 hj with hj | hj
    · exact Or.inl (hs.queue_subset j (hq ▸ List.mem_cons_of_mem i hj))
    · exact Or.inr (List.mem_filter.1 hj).1
  · intro k hk hwait j hj
    rw [hmem]
    by_cases hki : k = i
    · exact Or.inr (hki ▸ hj)
    · have hold : k ∈ s.items := by
        rcases (hmem k).1 hk with hk | hk
        · exact hk
        · by_cases hn : k ∈ s.items
          · exact hn
          · exact absurd (List.mem_append_right rest
              (List.mem_filter.2 ⟨hk, by simpa using hn⟩)) hwait
      refine Or.inl (hs.predicted k hold ?_ j hj)
      rw [hq, List.mem_cons, not_or]
      exact ⟨hki, fun hr => hwait (List.mem_append_left _ hr)⟩

/-- No item waits in the end. -/
theorem Closing.queue_run (g : AugmentedGrammar) (s : Closing) : ((loop g).run s).queue = [] :=
  next_eq_none_iff.1 ((loop g).next_run s)

theorem mem_closure_iff {start : ItemSet} {j : Item} :
    j ∈ closure g start ↔ ∃ i ∈ start, Item.Leads g i j := by
  have hinit : Closing.Sound g start ⟨start, start.toList⟩ :=
    ⟨fun _ h => h, fun j hj => ⟨j, hj, .refl⟩, fun _ h => Std.ExtTreeSet.mem_toList.1 h,
      fun i hi hn => absurd (Std.ExtTreeSet.mem_toList.2 hi) hn⟩
  have hs := (Closing.loop g).run_induction (fun _ _ => Closing.sound_next) hinit
  -- The loop stops with nothing waiting, so the set is closed under predictions.
  have hq := Closing.queue_run g ⟨start, start.toList⟩
  show j ∈ ((Closing.loop g).run ⟨start, start.toList⟩).items ↔ _
  generalize (Closing.loop g).run ⟨start, start.toList⟩ = s at hs hq
  constructor
  · exact hs.leads j
  · intro h
    obtain ⟨i, hi, hij⟩ := h
    induction hij with
    | refl => exact hs.start_subset i hi
    | tail _ hj ih => exact hs.predicted _ ih (by simp [hq]) _ hj

theorem subset_closure {start : ItemSet} {i : Item} (h : i ∈ start) : i ∈ closure g start :=
  mem_closure_iff.2 ⟨i, h, .refl⟩

theorem predictions_subset_closure {start : ItemSet} {i j : Item} (hi : i ∈ closure g start)
    (hj : j ∈ i.predictions g) : j ∈ closure g start := by
  obtain ⟨k, hk, hki⟩ := mem_closure_iff.1 hi
  exact mem_closure_iff.2 ⟨k, hk, hki.tail hj⟩

/-! ## Goto -/

theorem mem_advanceOver_iff {items : ItemSet} {s : Symbol} {j : Item} :
    j ∈ advanceOver g items s ↔ ∃ i ∈ items, i.next? g = some s ∧ i.advance = j := by
  simp only [advanceOver, Std.ExtTreeSet.mem_ofList, List.contains_iff_mem, List.mem_map,
    List.mem_filter, Std.ExtTreeSet.mem_toList, decide_eq_true_eq, and_assoc]

theorem isEmpty_iff_forall_not_mem {items : ItemSet} :
    items.isEmpty = true ↔ ∀ i, i ∉ items := by
  rw [Std.ExtTreeSet.isEmpty_iff]
  constructor
  · intro h i
    simp [h]
  · intro h
    exact Std.ExtTreeSet.ext_mem fun i => by simp [h i]

/-- Goto leads nowhere exactly when no item has the symbol after its dot. -/
theorem goto?_eq_none_iff {items : ItemSet} {s : Symbol} :
    goto? g items s = none ↔ ∀ i ∈ items, i.next? g ≠ some s := by
  simp only [goto?, ite_eq_left_iff, reduceCtorEq, imp_false, Bool.not_eq_true, Bool.not_eq_false]
  rw [isEmpty_iff_forall_not_mem]
  constructor
  · intro h i hi hs
    exact h i.advance (mem_advanceOver_iff.2 ⟨i, hi, hs, rfl⟩)
  · intro h j hj
    obtain ⟨i, hi, hs, -⟩ := mem_advanceOver_iff.1 hj
    exact h i hi hs

theorem mem_of_goto?_eq_some_iff {items target : ItemSet} {s : Symbol}
    (h : goto? g items s = some target) {j : Item} :
    j ∈ target ↔ ∃ i ∈ items, i.next? g = some s ∧ Item.Leads g i.advance j := by
  have htarget : target = closure g (advanceOver g items s) := by
    simp only [goto?] at h
    split at h
    · simp at h
    · exact (Option.some.inj h).symm
  rw [htarget, mem_closure_iff]
  refine ⟨?_, ?_⟩
  · intro h
    obtain ⟨k, hk, hkj⟩ := h
    obtain ⟨i, hi, hs, rfl⟩ := mem_advanceOver_iff.1 hk
    exact ⟨i, hi, hs, hkj⟩
  · intro h
    obtain ⟨i, hi, hs, hij⟩ := h
    exact ⟨i.advance, mem_advanceOver_iff.2 ⟨i, hi, hs, rfl⟩, hij⟩

/-- An item with the symbol after its dot has a goto set to go to, with its advance in it. -/
theorem exists_goto?_of_mem {items : ItemSet} {i : Item} {s : Symbol} (hi : i ∈ items)
    (hs : i.next? g = some s) : ∃ target, goto? g items s = some target ∧ i.advance ∈ target := by
  match h : goto? g items s with
  | none => exact absurd hs (goto?_eq_none_iff.1 h i hi)
  | some target => exact ⟨target, rfl, (mem_of_goto?_eq_some_iff h).2 ⟨i, hi, hs, .refl⟩⟩

/-- Where goto leads somewhere, it moves the dot of some item. -/
theorem exists_next?_of_goto? {items target : ItemSet} {s : Symbol}
    (h : goto? g items s = some target) : ∃ i ∈ items, i.next? g = some s := by
  have hmoves : ¬∀ i ∈ items, i.next? g ≠ some s := by
    rw [← goto?_eq_none_iff, h]
    simp
  simpa using hmoves

theorem mem_nextSymbols_iff {items : ItemSet} {s : Symbol} :
    s ∈ nextSymbols g items ↔ ∃ i ∈ items, i.next? g = some s := by
  simp only [nextSymbols, List.mem_eraseDups, List.mem_filterMap, Std.ExtTreeSet.mem_toList]

end ItemSet

end ShiftReduce
