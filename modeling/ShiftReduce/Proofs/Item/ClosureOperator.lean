import Mathlib.Order.Bounds.Basic
import ShiftReduce.Proofs.Item.Closure

set_option autoImplicit false

/-! # Closure as an operator on item sets

Whatever items a set has, be they of the grammar or not, closing it adds initial items only, and
which ones can be told from symbols alone: those of the symbols that the items call for. Since an
item calls for a symbol by itself, without the other items, closing a union is closing its parts, and
the same holds for goto, which closes what it has moved.

**`Item.leads_iff`**: chains of predictions are chains of first symbols.
**`ItemSet.isLeast_closure`**: closing a set gives the least closed one that has its items.
**`ItemSet.closureLaws`**: what closure and goto do to every item set. -/

namespace ShiftReduce

variable {g : AugmentedGrammar} {K L : ItemSet} {i j : Item} {s x : Symbol}

/-! ## Chains of first symbols -/

/-- Whether a production of `b` has `c` as the first symbol of its right side. -/
def AugmentedGrammar.BeginsWith (g : AugmentedGrammar) (b c : Symbol) : Prop :=
  ∃ id p, (id, p) ∈ g.productionsOf b ∧ p.right.head? = some c

namespace Item

/-- Whether first symbols of right sides lead from the symbol after the dot to `s`. -/
def CallsFor (g : AugmentedGrammar) (i : Item) (s : Symbol) : Prop :=
  ∃ b, i.next? g = some b ∧ Relation.ReflTransGen g.BeginsWith b s

/-- The symbol after a dot in front is the first one of the right side. -/
theorem beginsWith_of_next? {c : Symbol} (hdot : i.dot = 0) (hlhs : i.lhs? g = some s)
    (hnext : i.next? g = some c) : g.BeginsWith s c := by
  obtain ⟨p, hp, hs⟩ := lhs?_eq_some_iff.1 hlhs
  obtain ⟨q, hq, hc⟩ := next?_eq_some_iff.1 hnext
  obtain rfl := Option.some.inj (hp.symm.trans hq)
  refine ⟨i.production, p, AugmentedGrammar.mem_productionsOf_iff.2 ⟨hp, hs⟩, ?_⟩
  rw [List.head?_eq_getElem?, ← hdot, hc]

/-- What an item predicts, directly or through others, has the dot before the production of a symbol
    that the item calls for. -/
theorem Leads.eq_or_callsFor (h : Leads g i j) :
    i = j ∨ j.dot = 0 ∧ ∃ s, j.lhs? g = some s ∧ i.CallsFor g s := by
  induction h with
  | refl => exact Or.inl rfl
  | tail _ hlast ih =>
    obtain ⟨hdot, c, hnext, hlhs⟩ := mem_predictions_iff.1 hlast
    refine Or.inr ⟨hdot, c, hlhs, ?_⟩
    rcases ih with rfl | ⟨hfront, s, hs, b, hb, hchain⟩
    · exact ⟨c, hnext, .refl⟩
    · exact ⟨b, hb, hchain.tail (beginsWith_of_next? hfront hs hnext)⟩

theorem CallsFor.leads (h : i.CallsFor g s) (hdot : j.dot = 0) (hlhs : j.lhs? g = some s) :
    Leads g i j := by
  obtain ⟨b, hb, hchain⟩ := h
  induction hchain generalizing j with
  | refl => exact .single (mem_predictions_iff.2 ⟨hdot, b, hb, hlhs⟩)
  | tail _ hstep ih =>
    -- The production that begins with `s` is predicted first, and predicts those of `s`.
    obtain ⟨id, p, hp, hhead⟩ := hstep
    obtain ⟨hproduction, hs⟩ := AugmentedGrammar.mem_productionsOf_iff.1 hp
    have hbefore := ih (j := ⟨id, 0⟩) rfl (lhs?_eq_some_iff.2 ⟨p, hproduction, hs⟩)
    have hnext : Item.next? g ⟨id, 0⟩ = some _ :=
      next?_eq_some_iff.2 ⟨p, hproduction, by rw [← List.head?_eq_getElem?, hhead]⟩
    exact hbefore.tail (mem_predictions_iff.2 ⟨hdot, _, hnext, hlhs⟩)

theorem leads_iff :
    Leads g i j ↔ i = j ∨ j.dot = 0 ∧ ∃ s, j.lhs? g = some s ∧ i.CallsFor g s := by
  refine ⟨Leads.eq_or_callsFor, ?_⟩
  rintro (rfl | ⟨hdot, s, hlhs, hcalls⟩)
  · exact .refl
  · exact hcalls.leads hdot hlhs

/-- Whether the items, when one of them has its dot before a nonterminal, have the initial items of
    all productions of the nonterminal, too. -/
def AreClosed (g : AugmentedGrammar) (items : Set Item) : Prop :=
  ∀ i ∈ items, ∀ s, i.next? g = some s → ∀ id p, (id, p) ∈ g.productionsOf s → ⟨id, 0⟩ ∈ items

theorem areClosed_iff {items : Set Item} :
    AreClosed g items ↔ ∀ i ∈ items, ∀ j ∈ i.predictions g, j ∈ items := by
  constructor
  · intro h i hi j hj
    obtain ⟨hdot, s, hnext, hlhs⟩ := mem_predictions_iff.1 hj
    obtain ⟨p, hp⟩ := lhs?_eq_some_iff.1 hlhs
    have hmem := h i hi s hnext j.production p (AugmentedGrammar.mem_productionsOf_iff.2 hp)
    rwa [← hdot] at hmem
  · intro h i hi s hnext id p hp
    exact h i hi _ (mem_predictions_iff.2
      ⟨rfl, s, hnext, lhs?_eq_some_iff.2 ⟨p, AugmentedGrammar.mem_productionsOf_iff.1 hp⟩⟩)

end Item

namespace ItemSet

/-! ## Closure -/

theorem mem_closure_iff_callsFor : j ∈ closure g K ↔
    j ∈ K ∨ j.dot = 0 ∧ ∃ s, j.lhs? g = some s ∧ ∃ i ∈ K, i.CallsFor g s := by
  rw [mem_closure_iff]
  simp only [Item.leads_iff]
  constructor
  · rintro ⟨i, hi, rfl | ⟨hdot, s, hlhs, hcalls⟩⟩
    · exact Or.inl hi
    · exact Or.inr ⟨hdot, s, hlhs, i, hi, hcalls⟩
  · rintro (hj | ⟨hdot, s, hlhs, i, hi, hcalls⟩)
    · exact ⟨j, hj, Or.inl rfl⟩
    · exact ⟨i, hi, Or.inr ⟨hdot, s, hlhs, hcalls⟩⟩

theorem isLeast_closure (g : AugmentedGrammar) (K : ItemSet) :
    IsLeast {S : Set Item | (∀ i ∈ K, i ∈ S) ∧ Item.AreClosed g S} {i | i ∈ closure g K} := by
  refine ⟨⟨fun i hi => subset_closure hi, ?_⟩, ?_⟩
  · exact Item.areClosed_iff.2 fun i hi j hj => predictions_subset_closure hi hj
  · rintro S ⟨hK, hS⟩ j hj
    obtain ⟨i, hi, hleads⟩ := mem_closure_iff.1 hj
    induction hleads with
    | refl => exact hK i hi
    | tail hleads hlast ih =>
      exact Item.areClosed_iff.1 hS _ (ih (mem_closure_iff.2 ⟨i, hi, hleads⟩)) _ hlast

theorem closure_mono (h : ∀ i ∈ K, i ∈ L) : ∀ i ∈ closure g K, i ∈ closure g L := by
  intro j hj
  obtain ⟨i, hi, hleads⟩ := mem_closure_iff.1 hj
  exact mem_closure_iff.2 ⟨i, h i hi, hleads⟩

theorem closure_closure (g : AugmentedGrammar) (K : ItemSet) :
    closure g (closure g K) = closure g K := by
  refine Std.ExtTreeSet.ext_mem fun j => ⟨?_, subset_closure⟩
  intro hj
  obtain ⟨k, hk, hkj⟩ := mem_closure_iff.1 hj
  obtain ⟨i, hi, hik⟩ := mem_closure_iff.1 hk
  exact mem_closure_iff.2 ⟨i, hi, hik.trans hkj⟩

/-- What is found from a union is found from one of its parts. -/
theorem exists_mem_union {P : Item → Prop} :
    (∃ i ∈ K ∪ L, P i) ↔ (∃ i ∈ K, P i) ∨ ∃ i ∈ L, P i := by
  simp only [Std.ExtTreeSet.mem_union_iff, or_and_right, exists_or]

theorem closure_union (g : AugmentedGrammar) (K L : ItemSet) :
    closure g (K ∪ L) = closure g K ∪ closure g L := by
  refine Std.ExtTreeSet.ext_mem fun j => ?_
  rw [Std.ExtTreeSet.mem_union_iff]
  simp only [mem_closure_iff, exists_mem_union]

/-! ## Goto -/

/-- The items that goto leads to, which are none where it leads nowhere. -/
def gotoItems (g : AugmentedGrammar) (K : ItemSet) (x : Symbol) : ItemSet :=
  (goto? g K x).getD ∅

theorem mem_gotoItems_iff :
    j ∈ gotoItems g K x ↔ ∃ i ∈ K, i.next? g = some x ∧ Item.Leads g i.advance j := by
  unfold gotoItems
  cases h : goto? g K x with
  | none =>
    have hnone := goto?_eq_none_iff.1 h
    simp only [Option.getD_none, Std.ExtTreeSet.not_mem_empty, false_iff, not_exists, not_and]
    exact fun i hi hx => absurd hx (hnone i hi)
  | some target => exact mem_of_goto?_eq_some_iff h

theorem gotoItems_union (g : AugmentedGrammar) (K L : ItemSet) (x : Symbol) :
    gotoItems g (K ∪ L) x = gotoItems g K x ∪ gotoItems g L x := by
  refine Std.ExtTreeSet.ext_mem fun j => ?_
  rw [Std.ExtTreeSet.mem_union_iff]
  simp only [mem_gotoItems_iff, exists_mem_union]

theorem inRange_gotoItems (hi : i ∈ gotoItems g K x) : i.InRange g := by
  unfold gotoItems at hi
  cases h : goto? g K x with
  | none => simp [h] at hi
  | some target =>
    rw [h, Option.getD_some] at hi
    exact inRange_goto? h i hi

/-! ## The laws -/

/-- What closure adds to a set, that it is a closure operator, and that it goes with unions, as goto
    does, whose items are always items of the grammar. Nothing is asked of the items in the sets. -/
structure ClosureLaws (g : AugmentedGrammar) : Prop where
  mem_iff : ∀ K j, j ∈ closure g K ↔
    j ∈ K ∨ j.dot = 0 ∧ ∃ s, j.lhs? g = some s ∧ ∃ i ∈ K, i.CallsFor g s
  isLeast : ∀ K, IsLeast {S : Set Item | (∀ i ∈ K, i ∈ S) ∧ Item.AreClosed g S}
    {i | i ∈ closure g K}
  extensive : ∀ K, ∀ i ∈ K, i ∈ closure g K
  monotone : ∀ K L, (∀ i ∈ K, i ∈ L) → ∀ i ∈ closure g K, i ∈ closure g L
  idempotent : ∀ K, closure g (closure g K) = closure g K
  union : ∀ K L, closure g (K ∪ L) = closure g K ∪ closure g L
  goto_union : ∀ K L x, gotoItems g (K ∪ L) x = gotoItems g K x ∪ gotoItems g L x
  goto_inRange : ∀ K x, ∀ i ∈ gotoItems g K x, i.InRange g

/-- **Closing an item set adds the initial items of the symbols that its items call for**, and no
    others, so it gives the least closed set above. -/
theorem closureLaws (g : AugmentedGrammar) : ClosureLaws g where
  mem_iff _ _ := mem_closure_iff_callsFor
  isLeast := isLeast_closure g
  extensive _ _ := subset_closure
  monotone _ _ := closure_mono
  idempotent := closure_closure g
  union := closure_union g
  goto_union := gotoItems_union g
  goto_inRange _ _ _ := inRange_gotoItems

end ItemSet

end ShiftReduce
