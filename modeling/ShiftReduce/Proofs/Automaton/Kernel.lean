import ShiftReduce.Proofs.Automaton.States

set_option autoImplicit false

/-! # Kernels

The kernel of a state is what goto moved there: the items whose dots are not in front, and
`[S′ → · S]` where everything begins. The other items were predicted, by chains of predictions that
all begin in the kernel, so recursive nonterminals that only predict each other never get in by
themselves. A state is then known by its kernel.

**`ItemSet.IsReachable.closure_kernel`**: the items of a state are the closure of its kernel.
**`Automaton.isGrounded_ofGrammar`**: what this means for the states and edges of the automaton. -/

namespace ShiftReduce

variable {g : AugmentedGrammar} {items : ItemSet} {i j : Item}

namespace ItemSet

/-- The items whose dots are not in front, and those of `S′ -> S`. -/
def kernel (g : AugmentedGrammar) (items : ItemSet) : ItemSet :=
  items.filter fun i => 0 < i.dot ∨ i.production = g.augmented

theorem mem_kernel_iff :
    i ∈ kernel g items ↔ i ∈ items ∧ (0 < i.dot ∨ i.production = g.augmented) := by
  rw [kernel, ← Std.ExtTreeSet.mem_toList, Std.ExtTreeSet.toList_filter, List.mem_filter,
    Std.ExtTreeSet.mem_toList, decide_eq_true_eq]

/-- Every item comes from the kernel by predictions. -/
theorem IsReachable.exists_leads (h : IsReachable g items) (hj : j ∈ items) :
    ∃ i ∈ kernel g items, Item.Leads g i j := by
  rcases h.cases_tail with rfl | ⟨before, -, x, hgoto⟩
  · obtain ⟨i, hi, hleads⟩ := mem_closure_iff.1 hj
    obtain rfl : ⟨g.augmented, 0⟩ = i := by simpa using hi
    exact ⟨_, mem_kernel_iff.2 ⟨subset_closure hi, Or.inr rfl⟩, hleads⟩
  · obtain ⟨i, hi, hx, hleads⟩ := (mem_of_goto?_eq_some_iff hgoto).1 hj
    have hmoved : i.advance ∈ items := (mem_of_goto?_eq_some_iff hgoto).2 ⟨i, hi, hx, .refl⟩
    exact ⟨i.advance, mem_kernel_iff.2 ⟨hmoved, Or.inl (Nat.succ_pos i.dot)⟩, hleads⟩

theorem IsReachable.closure_kernel (h : IsReachable g items) :
    closure g (kernel g items) = items := by
  refine Std.ExtTreeSet.ext_mem fun j => ⟨?_, fun hj => mem_closure_iff.2 (h.exists_leads hj)⟩
  intro hj
  obtain ⟨i, hi, hleads⟩ := mem_closure_iff.1 hj
  rw [← h.closure_eq_self]
  exact mem_closure_iff.2 ⟨i, (mem_kernel_iff.1 hi).1, hleads⟩

/-- A rule with its dot in front is predicted by an item of the set. -/
theorem IsReachable.exists_next?_eq (h : IsReachable g items) {id : ProductionId}
    (hid : ⟨id, 0⟩ ∈ items) (hne : id ≠ g.augmented) :
    ∃ s, Item.lhs? g ⟨id, 0⟩ = some s ∧ ∃ i ∈ items, i.next? g = some s := by
  obtain ⟨k, hk, hleads⟩ := h.exists_leads hid
  -- The item is not in the kernel itself, so the chain has a last prediction.
  rcases hleads.cases_tail with rfl | ⟨i, hi, hlast⟩
  · rcases (mem_kernel_iff.1 hk).2 with hdot | haugmented
    · exact absurd hdot (Nat.lt_irrefl 0)
    · exact absurd haugmented hne
  · obtain ⟨-, s, hs, hlhs⟩ := Item.mem_predictions_iff.1 hlast
    refine ⟨s, hlhs, i, ?_, hs⟩
    rw [← h.closure_kernel]
    exact mem_closure_iff.2 ⟨k, hk, hi⟩

end ItemSet

namespace Automaton

/-- Whether the items with the dot in front are explained: the states are the closures of their
    kernels, so that no two of them have the same kernel, and where a rule has its dot in front, an
    item has the dot before the rule's left side. All productions of this left side are there then,
    and an edge over it leads on. -/
structure IsGrounded (a : Automaton) : Prop where
  closure_kernel : ∀ id items, a.items? id = some items →
    (items.kernel a.grammar).closure a.grammar = items
  eq_of_kernel_eq : ∀ id other items items', a.items? id = some items →
    a.items? other = some items' → items.kernel a.grammar = items'.kernel a.grammar → id = other
  explained : ∀ id items, a.items? id = some items → ∀ p, ⟨p, 0⟩ ∈ items →
    p ≠ a.grammar.augmented → ∃ s, Item.lhs? a.grammar ⟨p, 0⟩ = some s ∧
      (∃ i ∈ items, i.next? a.grammar = some s) ∧
      (∀ q production, (q, production) ∈ a.grammar.productionsOf s → ⟨q, 0⟩ ∈ items) ∧
      ∃ target, a.goto? id s = some target

/-- **The states of an automaton are determined by their kernels**, and closure has added nothing
    that an item of the state does not ask for. -/
theorem isGrounded_ofGrammar (g : AugmentedGrammar) : (ofGrammar g).IsGrounded where
  closure_kernel id _ hid := (exists_items?_iff.1 ⟨id, hid⟩).closure_kernel
  eq_of_kernel_eq id other items items' hid hother hkernel := by
    have hreachable := exists_items?_iff.1 ⟨id, hid⟩
    have hreachable' := exists_items?_iff.1 ⟨other, hother⟩
    have hitems : items' = items := calc
      items' = ItemSet.closure g (items'.kernel g) := hreachable'.closure_kernel.symm
      _ = ItemSet.closure g (items.kernel g) := congrArg (ItemSet.closure g) hkernel.symm
      _ = items := hreachable.closure_kernel
    exact items?_inj hid (hitems ▸ hother)
  explained id items hid p hp hne := by
    have hreachable := exists_items?_iff.1 ⟨id, hid⟩
    obtain ⟨s, hlhs, i, hi, hs⟩ := hreachable.exists_next?_eq hp hne
    refine ⟨s, hlhs, ⟨i, hi, hs⟩, ?_, ?_⟩
    · intro q production hq
      obtain ⟨hproduction, hqlhs⟩ := AugmentedGrammar.mem_productionsOf_iff.1 hq
      have hpredicted : ⟨q, 0⟩ ∈ i.predictions g := Item.mem_predictions_iff.2
        ⟨rfl, s, hs, Item.lhs?_eq_some_iff.2 ⟨production, hproduction, hqlhs⟩⟩
      exact hreachable.mem_of_mem_predictions hi hpredicted
    · obtain ⟨target, hgoto, -⟩ := ItemSet.exists_goto?_of_mem hi hs
      obtain ⟨next, hnext⟩ := exists_items?_iff.2 (hreachable.goto hgoto)
      exact ⟨next, ((isGotoGraph_ofGrammar g).goto?_eq_some_iff hid).2 ⟨target, hgoto, hnext⟩⟩

end Automaton

end ShiftReduce
