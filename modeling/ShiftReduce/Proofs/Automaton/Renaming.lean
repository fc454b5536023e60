import Mathlib.Data.Set.Function
import Mathlib.Logic.Equiv.Basic
import Mathlib.Order.Interval.Set.Defs
import ShiftReduce.Proofs.Automaton.States

set_option autoImplicit false

/-! # Automata of renamed productions

Two augmented grammars may have the same productions under different names. Renaming the production
in an item changes nothing about its dot, so closure and goto rename along, and each item set that
goto reaches in the one grammar is reached in the other when its items are renamed. The states are
numbered in the order in which the two searches find them, and it is the items that tell which state
of the one automaton is which state of the other.

**`ItemSet.goto?_rename`**: goto takes renamed items to renamed items.
**`Automaton.isRenaming_ofGrammar`**: the automata have the same states and edges under other
names. -/

namespace ShiftReduce

/-- Whether `g'` has under the name `π id` what `g` has under the name `id`. -/
structure AugmentedGrammar.IsRenaming (g g' : AugmentedGrammar) (π : Equiv.Perm ProductionId) :
    Prop where
  production?_eq : ∀ id, g'.production? (π id) = g.production? id
  augmented_eq : π g.augmented = g'.augmented

theorem AugmentedGrammar.IsRenaming.symm {g g' : AugmentedGrammar} {π : Equiv.Perm ProductionId}
    (h : g.IsRenaming g' π) : g'.IsRenaming g π.symm where
  production?_eq id := by rw [← h.production?_eq, Equiv.apply_symm_apply]
  augmented_eq := by rw [← h.augmented_eq, Equiv.symm_apply_apply]

variable {g g' : AugmentedGrammar} {π : Equiv.Perm ProductionId}

/-! ## Items -/

namespace Item

variable {i j : Item}

/-- The item with the other name of its production. -/
def rename (π : Equiv.Perm ProductionId) (i : Item) : Item where
  production := π i.production
  dot := i.dot

theorem rename_symm (π : Equiv.Perm ProductionId) (i : Item) :
    (i.rename π.symm).rename π = i := by
  simp [rename]

theorem rename_injective (π : Equiv.Perm ProductionId) : Function.Injective (rename π) := by
  intro i j hij
  obtain ⟨hproduction, hdot⟩ := Item.mk.inj hij
  exact congrArg₂ Item.mk (π.injective hproduction) hdot

theorem next?_rename (h : g.IsRenaming g' π) (i : Item) : (i.rename π).next? g' = i.next? g := by
  simp only [next?, rename, h.production?_eq]

theorem lhs?_rename (h : g.IsRenaming g' π) (i : Item) : (i.rename π).lhs? g' = i.lhs? g := by
  simp only [lhs?, rename, h.production?_eq]

theorem isComplete_rename (h : g.IsRenaming g' π) (i : Item) :
    (i.rename π).isComplete g' = i.isComplete g := by
  simp only [isComplete, rename, h.production?_eq]
  rfl

theorem mem_predictions_rename_iff (h : g.IsRenaming g' π) :
    j.rename π ∈ (i.rename π).predictions g' ↔ j ∈ i.predictions g := by
  rw [mem_predictions_iff, mem_predictions_iff, next?_rename h, lhs?_rename h]
  rfl

theorem Leads.rename (h : g.IsRenaming g' π) (hleads : Leads g i j) :
    Leads g' (i.rename π) (j.rename π) := by
  induction hleads with
  | refl => exact .refl
  | tail _ hlast ih => exact ih.tail ((mem_predictions_rename_iff h).2 hlast)

theorem leads_rename_iff (h : g.IsRenaming g' π) :
    Leads g' (i.rename π) (j.rename π) ↔ Leads g i j := by
  refine ⟨?_, Leads.rename h⟩
  intro hleads
  have hback := hleads.rename h.symm
  simpa [Item.rename] using hback

end Item

/-! ## Item sets -/

namespace ItemSet

variable {items target : ItemSet} {x : Symbol}

def rename (π : Equiv.Perm ProductionId) (items : ItemSet) : ItemSet :=
  .ofList (items.toList.map (Item.rename π))

theorem mem_rename_iff {j : Item} :
    j ∈ items.rename π ↔ ∃ i ∈ items, i.rename π = j := by
  simp only [rename, Std.ExtTreeSet.mem_ofList, List.contains_iff_mem, List.mem_map,
    Std.ExtTreeSet.mem_toList]

theorem rename_mem_rename_iff {i : Item} : i.rename π ∈ items.rename π ↔ i ∈ items := by
  rw [mem_rename_iff]
  refine ⟨?_, fun hi => ⟨i, hi, rfl⟩⟩
  rintro ⟨k, hk, he⟩
  rwa [← Item.rename_injective π he]

/-- Two sets of renamed items are compared item by item under the old names. -/
theorem ext_rename {xs ys : ItemSet} (h : ∀ i : Item, i.rename π ∈ xs ↔ i.rename π ∈ ys) :
    xs = ys := by
  refine Std.ExtTreeSet.ext_mem fun j => ?_
  have hj := h (j.rename π.symm)
  rwa [Item.rename_symm] at hj

theorem rename_symm (π : Equiv.Perm ProductionId) (items : ItemSet) :
    (items.rename π.symm).rename π = items := by
  refine ext_rename (π := π) fun i => ?_
  rw [rename_mem_rename_iff, mem_rename_iff]
  constructor
  · rintro ⟨k, hk, rfl⟩
    rwa [Item.rename_symm]
  · intro hi
    exact ⟨i.rename π, hi, Item.rename_symm π.symm i⟩

theorem rename_injective (π : Equiv.Perm ProductionId) : Function.Injective (rename π) := by
  intro xs ys h
  rw [← rename_symm π.symm xs, ← rename_symm π.symm ys, π.symm_symm, h]

theorem isEmpty_rename (π : Equiv.Perm ProductionId) (items : ItemSet) :
    (items.rename π).isEmpty = items.isEmpty := by
  rw [Bool.eq_iff_iff, isEmpty_iff_forall_not_mem, isEmpty_iff_forall_not_mem]
  constructor
  · intro h i hi
    exact h _ (rename_mem_rename_iff.2 hi)
  · intro h j hj
    obtain ⟨i, hi, -⟩ := mem_rename_iff.1 hj
    exact h i hi

theorem closure_rename (h : g.IsRenaming g' π) (items : ItemSet) :
    closure g' (items.rename π) = (closure g items).rename π := by
  refine ext_rename (π := π) fun j => ?_
  rw [rename_mem_rename_iff, mem_closure_iff, mem_closure_iff]
  constructor
  · rintro ⟨k, hk, hleads⟩
    obtain ⟨i, hi, rfl⟩ := mem_rename_iff.1 hk
    exact ⟨i, hi, (Item.leads_rename_iff h).1 hleads⟩
  · rintro ⟨i, hi, hleads⟩
    exact ⟨i.rename π, rename_mem_rename_iff.2 hi, hleads.rename h⟩

theorem advanceOver_rename (h : g.IsRenaming g' π) (items : ItemSet) (x : Symbol) :
    advanceOver g' (items.rename π) x = (advanceOver g items x).rename π := by
  refine ext_rename (π := π) fun j => ?_
  rw [rename_mem_rename_iff, mem_advanceOver_iff, mem_advanceOver_iff]
  constructor
  · rintro ⟨k, hk, hx, he⟩
    obtain ⟨i, hi, rfl⟩ := mem_rename_iff.1 hk
    exact ⟨i, hi, by rwa [Item.next?_rename h] at hx, Item.rename_injective π he⟩
  · rintro ⟨i, hi, hx, rfl⟩
    exact ⟨i.rename π, rename_mem_rename_iff.2 hi, by rwa [Item.next?_rename h], rfl⟩

/-- **Goto takes renamed items to renamed items.** -/
theorem goto?_rename (h : g.IsRenaming g' π) (items : ItemSet) (x : Symbol) :
    goto? g' (items.rename π) x = (goto? g items x).map (rename π) := by
  simp only [goto?, advanceOver_rename h, isEmpty_rename]
  split
  · rfl
  · rw [closure_rename h, Option.map_some]

theorem start_rename (h : g.IsRenaming g' π) : start g' = (start g).rename π := by
  have hsingle (i k : Item) : i ∈ ({k} : ItemSet) ↔ k = i := by simp
  have hseed : ({⟨g'.augmented, 0⟩} : ItemSet) = ({⟨g.augmented, 0⟩} : ItemSet).rename π := by
    refine ext_rename (π := π) fun i => ?_
    rw [rename_mem_rename_iff, hsingle, hsingle, ← h.augmented_eq]
    exact (Item.rename_injective π).eq_iff (a := ⟨g.augmented, 0⟩)
  rw [start, hseed, closure_rename h, start]

theorem IsReachable.rename (h : g.IsRenaming g' π) (hitems : items.IsReachable g) :
    (items.rename π).IsReachable g' := by
  induction hitems with
  | refl =>
    show IsReachable g' ((start g).rename π)
    rw [← start_rename h]
    exact .refl
  | tail _ hstep ih =>
    obtain ⟨x, hx⟩ := hstep
    exact ih.goto (by rw [goto?_rename h, hx, Option.map_some])

end ItemSet

/-! ## Automata -/

namespace Automaton

variable {id : StateId} {items : ItemSet}

/-- Whether `a'` is `a` with other names for the productions and the states. -/
structure IsRenaming (a a' : Automaton) (π : Equiv.Perm ProductionId) (φ : StateId → StateId) :
    Prop where
  grammar : a.grammar.IsRenaming a'.grammar π
  bijOn : Set.BijOn φ (Set.Iio a.size) (Set.Iio a'.size)
  initial_eq : φ initial = initial
  items?_eq : ∀ id < a.size, a'.items? (φ id) = (a.items? id).map (ItemSet.rename π)
  goto?_eq : ∀ id < a.size, ∀ x, a'.goto? (φ id) x = (a.goto? id x).map φ

/-- The state of `a'` that has the renamed items of a state of `a`. -/
def counterpart (a a' : Automaton) (π : Equiv.Perm ProductionId) (id : StateId) : StateId :=
  (((a.items? id).map (ItemSet.rename π)).bind a'.find?).getD id

theorem items?_counterpart (h : g.IsRenaming g' π) (hid : (ofGrammar g).items? id = some items) :
    (ofGrammar g').items? (counterpart (ofGrammar g) (ofGrammar g') π id) =
      some (items.rename π) := by
  obtain ⟨other, hother⟩ := exists_items?_iff.2 ((exists_items?_iff.1 ⟨id, hid⟩).rename h)
  rw [counterpart, hid, Option.map_some, Option.bind_some, find?_eq_some_iff.2 hother,
    Option.getD_some, hother]

/-- The counterpart is the only state that has the renamed items. -/
theorem counterpart_eq_iff (h : g.IsRenaming g' π) (hid : (ofGrammar g).items? id = some items)
    {other : StateId} : counterpart (ofGrammar g) (ofGrammar g') π id = other ↔
      (ofGrammar g').items? other = some (items.rename π) := by
  constructor
  · rintro rfl
    exact items?_counterpart h hid
  · exact items?_inj (items?_counterpart h hid)

theorem bijOn_counterpart (h : g.IsRenaming g' π) :
    Set.BijOn (counterpart (ofGrammar g) (ofGrammar g') π) (Set.Iio (ofGrammar g).size)
      (Set.Iio (ofGrammar g').size) := by
  refine ⟨?_, ?_, ?_⟩
  · intro id hid
    obtain ⟨items, hitems⟩ := exists_items?_of_lt hid
    exact lt_size_of_items? (items?_counterpart h hitems)
  · intro id hid other hother he
    obtain ⟨xs, hxs⟩ := exists_items?_of_lt hid
    obtain ⟨ys, hys⟩ := exists_items?_of_lt hother
    have hsame : xs.rename π = ys.rename π := by
      have hrenamed := (counterpart_eq_iff h hxs).1 he
      exact Option.some.inj (hrenamed.symm.trans (items?_counterpart h hys))
    obtain rfl := ItemSet.rename_injective π hsame
    exact items?_inj hxs hys
  · intro other hother
    obtain ⟨ys, hys⟩ := exists_items?_of_lt hother
    -- Renamed back, the items are reached in the first grammar.
    obtain ⟨id, hid⟩ := exists_items?_iff.2 ((exists_items?_iff.1 ⟨other, hys⟩).rename h.symm)
    refine ⟨id, lt_size_of_items? hid, (counterpart_eq_iff h hid).2 ?_⟩
    rwa [ItemSet.rename_symm]

theorem goto?_counterpart (h : g.IsRenaming g' π) (hid : (ofGrammar g).items? id = some items)
    (x : Symbol) : (ofGrammar g').goto? (counterpart (ofGrammar g) (ofGrammar g') π id) x =
      ((ofGrammar g).goto? id x).map (counterpart (ofGrammar g) (ofGrammar g') π) := by
  have hcounterpart := items?_counterpart h hid
  match hx : (ofGrammar g).goto? id x with
  | none =>
    rw [Option.map_none, goto?_eq_none_iff hcounterpart, ItemSet.goto?_rename h,
      (goto?_eq_none_iff hid).1 hx, Option.map_none]
  | some target =>
    obtain ⟨hlt, htarget⟩ := lt_size_of_goto? hid hx
    obtain ⟨xs, hxs⟩ := exists_items?_of_lt hlt
    have hgoto : (items.rename π).goto? g' x = some (xs.rename π) := by
      rw [ItemSet.goto?_rename h, ← htarget, hxs, Option.map_some]
    match hx' : (ofGrammar g').goto? (counterpart (ofGrammar g) (ofGrammar g') π id) x with
    | none =>
      rw [goto?_eq_none_iff hcounterpart, hgoto] at hx'
      nomatch hx'
    | some target' =>
      obtain ⟨-, htarget'⟩ := lt_size_of_goto? hcounterpart hx'
      rw [Option.map_some, (counterpart_eq_iff h hxs).2 (htarget'.trans hgoto)]

/-- **The automata of two grammars with the same productions are the same** up to the names of
    productions and states. -/
theorem isRenaming_ofGrammar (h : g.IsRenaming g' π) : (ofGrammar g).IsRenaming (ofGrammar g') π
    (counterpart (ofGrammar g) (ofGrammar g') π) where
  grammar := h
  bijOn := bijOn_counterpart h
  initial_eq := by
    refine (counterpart_eq_iff h (items?_initial g)).2 ?_
    rw [items?_initial]
    exact congrArg some (ItemSet.start_rename h)
  items?_eq id hid := by
    obtain ⟨items, hitems⟩ := exists_items?_of_lt hid
    rw [items?_counterpart h hitems, hitems, Option.map_some]
  goto?_eq id hid x := by
    obtain ⟨items, hitems⟩ := exists_items?_of_lt hid
    exact goto?_counterpart h hitems x

end Automaton

end ShiftReduce
