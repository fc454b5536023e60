import Mathlib.Data.List.Induction
import ShiftReduce.Proofs.Automaton.Exploration

set_option autoImplicit false

/-! # Words followed through the automaton

Following a word from the initial state is following it through item sets with goto, so what a state
holds can be told from any word that leads to it. An item is carried along by the symbols after its
dot, and an item whose dot is not in front was carried there by the symbols before its dot.

**`ItemSet.exists_reached?_append`**: a word that leads to an item can be continued by what comes
after its dot.
**`ItemSet.exists_prefix_of_mem_reached?`**: a word that leads to an item ends with what comes
before its dot, and without this end it leads to the initial item.
**`Automaton.items?_path?`**: both ways to follow a word agree. -/

namespace ShiftReduce

variable {g : AugmentedGrammar} {items target : ItemSet} {u v w : Word} {x s : Symbol}

namespace ItemSet

/-- The items of the state in which everything begins. -/
def start (g : AugmentedGrammar) : ItemSet :=
  closure g {⟨g.augmented, 0⟩}

/-- The state in which everything begins has its dots in front. -/
theorem dot_eq_zero_of_mem_start {i : Item} (h : i ∈ start g) : i.dot = 0 := by
  obtain ⟨j, hj, hleads⟩ := mem_closure_iff.1 h
  obtain rfl : ⟨g.augmented, 0⟩ = j := by simpa using hj
  rcases hleads.eq_or_dot_eq_zero with rfl | hzero
  · rfl
  · exact hzero

/-- The items that a word leads to from the start. -/
def reached? (g : AugmentedGrammar) (w : Word) : Option ItemSet :=
  w.foldlM (goto? g) (start g)

theorem reached?_nil (g : AugmentedGrammar) : reached? g [] = some (start g) := rfl

theorem reached?_concat (g : AugmentedGrammar) (w : Word) (x : Symbol) :
    reached? g (w ++ [x]) = (reached? g w).bind (goto? g · x) := by
  simp [reached?, List.foldlM_append]

/-- Where a word leads, each word that it begins with leads somewhere. -/
theorem exists_reached?_of_append (h : reached? g (u ++ v) = some items) :
    ∃ before, reached? g u = some before := by
  rw [reached?, List.foldlM_append, Option.bind_eq_bind, Option.bind_eq_some_iff] at h
  obtain ⟨before, hbefore, -⟩ := h
  exact ⟨before, hbefore⟩

theorem exists_goto?_of_concat (h : reached? g (w ++ [x]) = some target) :
    ∃ items, reached? g w = some items ∧ goto? g items x = some target := by
  rw [reached?_concat] at h
  exact Option.bind_eq_some_iff.1 h

/-- No set that a word leads to is empty. -/
theorem exists_mem_of_reached? (h : reached? g w = some items) : ∃ i, i ∈ items := by
  induction w using List.reverseRecOn with
  | nil =>
    obtain rfl := Option.some.inj (h.symm.trans (reached?_nil g))
    exact ⟨⟨g.augmented, 0⟩, subset_closure (by simp)⟩
  | append_singleton w x _ =>
    obtain ⟨before, -, hgoto⟩ := exists_goto?_of_concat h
    obtain ⟨i, hi, hx⟩ := exists_next?_of_goto? hgoto
    exact ⟨i.advance, (mem_of_goto?_eq_some_iff hgoto).2 ⟨i, hi, hx, .refl⟩⟩

/-- What the items predict that a word leads to is among them. -/
theorem mem_reached?_of_mem_predictions {i j : Item} (hw : reached? g w = some items)
    (hi : i ∈ items) (hj : j ∈ i.predictions g) : j ∈ items := by
  induction w using List.reverseRecOn with
  | nil =>
    obtain rfl := Option.some.inj (hw.symm.trans (reached?_nil g))
    exact predictions_subset_closure hi hj
  | append_singleton w x _ =>
    obtain ⟨before, -, hgoto⟩ := exists_goto?_of_concat hw
    obtain ⟨k, hk, hx, hleads⟩ := (mem_of_goto?_eq_some_iff hgoto).1 hi
    exact (mem_of_goto?_eq_some_iff hgoto).2 ⟨k, hk, hx, hleads.tail hj⟩

/-! ## Moving dots forward -/

/-- The symbols after the dot of an item carry it along. -/
theorem exists_reached?_append {p : Production} {id : ProductionId} {d : Nat} {rest : Word}
    (hw : reached? g w = some items) (hi : ⟨id, d⟩ ∈ items) (hp : g.production? id = some p)
    (hu : p.right.drop d = u ++ rest) :
    ∃ target, reached? g (w ++ u) = some target ∧ ⟨id, d + u.length⟩ ∈ target := by
  induction u generalizing w items d with
  | nil => exact ⟨items, by rwa [List.append_nil], hi⟩
  | cons x u ih =>
    have hx : p.right[d]? = some x := by
      have hhead := congrArg List.head? hu
      simpa [List.head?_drop] using hhead
    have hdrop : p.right.drop (d + 1) = u ++ rest := by
      have htail := congrArg List.tail hu
      simpa [List.tail_drop] using htail
    obtain ⟨next, hnext, hadvance⟩ :=
      exists_goto?_of_mem hi (Item.next?_eq_some_iff.2 ⟨p, hp, hx⟩)
    have hwx : reached? g (w ++ [x]) = some next := by
      rw [reached?_concat, hw, Option.bind_some, hnext]
    obtain ⟨target, htarget, hmem⟩ := ih hwx hadvance hdrop
    refine ⟨target, by simpa using htarget, ?_⟩
    have hlen : d + (x :: u).length = d + 1 + u.length := by
      rw [List.length_cons]
      omega
    rwa [hlen]

/-! ## Moving dots back -/

/-- An item whose dot is not in front came from the item with the dot one place before. -/
theorem mem_of_succ_mem_goto? {id : ProductionId} {d : Nat} (h : goto? g items x = some target)
    (hi : ⟨id, d + 1⟩ ∈ target) : ⟨id, d⟩ ∈ items ∧ Item.next? g ⟨id, d⟩ = some x := by
  obtain ⟨⟨id', d'⟩, hj, hx, hleads⟩ := (mem_of_goto?_eq_some_iff h).1 hi
  rcases hleads.eq_or_dot_eq_zero with heq | hzero
  · simp only [Item.advance, Item.mk.injEq, Nat.add_right_cancel_iff] at heq
    obtain ⟨rfl, rfl⟩ := heq
    exact ⟨hj, hx⟩
  · simp at hzero

theorem inRange_of_mem_reached? (hw : reached? g w = some items) {i : Item} (hi : i ∈ items) :
    i.InRange g := by
  induction w using List.reverseRecOn with
  | nil =>
    obtain rfl := Option.some.inj (hw.symm.trans (reached?_nil g))
    refine inRange_closure ?_ i hi
    intro j hj
    obtain rfl : ⟨g.augmented, 0⟩ = j := by simpa using hj
    exact ⟨g.augmentedProduction, by simp [AugmentedGrammar.production?], Nat.zero_le _⟩
  | append_singleton w x _ =>
    obtain ⟨before, -, hgoto⟩ := exists_goto?_of_concat hw
    exact inRange_goto? hgoto i hi

theorem exists_prefix_of_mem_reached? {id : ProductionId} {d : Nat} {p : Production}
    (hw : reached? g w = some items) (hi : ⟨id, d⟩ ∈ items) (hp : g.production? id = some p) :
    ∃ u before, w = u ++ p.right.take d ∧ reached? g u = some before ∧ ⟨id, 0⟩ ∈ before := by
  induction d generalizing w items with
  | zero => exact ⟨w, items, by simp, hw, hi⟩
  | succ d ih =>
    induction w using List.reverseRecOn with
    | nil =>
      obtain rfl := Option.some.inj (hw.symm.trans (reached?_nil g))
      exact absurd (dot_eq_zero_of_mem_start hi) (Nat.succ_ne_zero d)
    | append_singleton w x _ =>
      obtain ⟨before, hbefore, hgoto⟩ := exists_goto?_of_concat hw
      obtain ⟨hmem, hx⟩ := mem_of_succ_mem_goto? hgoto hi
      obtain ⟨u, first, rfl, hu, hfirst⟩ := ih hbefore hmem
      obtain ⟨q, hq, hx⟩ := Item.next?_eq_some_iff.1 hx
      obtain rfl := Option.some.inj (hq.symm.trans hp)
      refine ⟨u, first, ?_, hu, hfirst⟩
      rw [List.take_add_one, hx, Option.toList_some, List.append_assoc]

/-- No item predicts the initial item of `S′ -> S`. -/
theorem not_mem_predictions_augmented (i : Item) : ⟨g.augmented, 0⟩ ∉ i.predictions g := by
  intro h
  obtain ⟨-, s, hs, hlhs⟩ := Item.mem_predictions_iff.1 h
  obtain ⟨q, hq, hlhs⟩ := Item.lhs?_eq_some_iff.1 hlhs
  obtain rfl : g.augmentedProduction = q := by simpa [AugmentedGrammar.production?] using hq
  obtain rfl := Option.some.inj (hlhs.symm.trans g.lhs?_augmentedProduction)
  exact Bool.noConfusion (Item.isSentinel_of_next? hs)

/-- Only the empty word leads to the initial item of `S′ -> S`. -/
theorem eq_nil_of_augmented_mem_reached? (hw : reached? g w = some items)
    (hi : ⟨g.augmented, 0⟩ ∈ items) : w = [] := by
  induction w using List.reverseRecOn with
  | nil => rfl
  | append_singleton w x _ =>
    obtain ⟨before, -, hgoto⟩ := exists_goto?_of_concat hw
    obtain ⟨j, -, -, hleads⟩ := (mem_of_goto?_eq_some_iff hgoto).1 hi
    rcases hleads.cases_tail with heq | ⟨k, -, hlast⟩
    · simp [Item.advance] at heq
    · exact absurd hlast (not_mem_predictions_augmented k)

theorem exists_reached?_start (g : AugmentedGrammar) :
    ∃ target, reached? g [g.start] = some target ∧ ⟨g.augmented, 1⟩ ∈ target := by
  have hfirst : ⟨g.augmented, 0⟩ ∈ start g := subset_closure (by simp)
  have hright : g.augmentedProduction.right.drop 0 = [g.start] ++ [] := rfl
  exact exists_reached?_append (reached?_nil g) hfirst g.production?_augmented hright

/-- The final item of `S′ -> S` is where the start symbol leads, and nowhere else. -/
theorem final_mem_reached?_iff (hw : reached? g w = some items) :
    ⟨g.augmented, 1⟩ ∈ items ↔ w = [g.start] := by
  refine ⟨?_, ?_⟩
  · intro hi
    obtain ⟨u, before, rfl, hu, hfirst⟩ :=
      exists_prefix_of_mem_reached? hw hi g.production?_augmented
    obtain rfl := eq_nil_of_augmented_mem_reached? hu hfirst
    rfl
  · rintro rfl
    obtain ⟨target, htarget, hi⟩ := exists_reached?_start g
    obtain rfl := Option.some.inj (hw.symm.trans htarget)
    exact hi

end ItemSet

/-! ## Paths -/

namespace Automaton

/-- The state that a word leads to from the given one. -/
def path? (a : Automaton) (id : StateId) (w : Word) : Option StateId :=
  w.foldlM a.goto? id

theorem path?_nil (a : Automaton) (id : StateId) : a.path? id [] = some id := rfl

theorem path?_concat (a : Automaton) (id : StateId) (w : Word) (x : Symbol) :
    a.path? id (w ++ [x]) = (a.path? id w).bind (a.goto? · x) := by
  simp [path?, List.foldlM_append]

theorem items?_path? (g : AugmentedGrammar) (w : Word) :
    ((ofGrammar g).path? initial w).map (ofGrammar g).items? =
      (ItemSet.reached? g w).map some := by
  induction w using List.reverseRecOn with
  | nil =>
    rw [path?_nil, ItemSet.reached?_nil, Option.map_some, Option.map_some, items?_initial]
    rfl
  | append_singleton w x ih =>
    rw [path?_concat, ItemSet.reached?_concat]
    match hpath : (ofGrammar g).path? initial w, hreached : ItemSet.reached? g w with
    | none, none => rfl
    | none, some _ => simp [hpath, hreached] at ih
    | some _, none => simp [hpath, hreached] at ih
    | some id, some items =>
      simp only [hpath, hreached, Option.map_some, Option.some.injEq] at ih
      exact items?_goto? ih x

/-- The state that a word leads to has the items that the word leads to. -/
theorem reached?_of_path? {id : StateId} (h : (ofGrammar g).path? initial w = some id) :
    ∃ items, (ofGrammar g).items? id = some items ∧ ItemSet.reached? g w = some items := by
  have hitems := items?_path? g w
  rw [h, Option.map_some, eq_comm, Option.map_eq_some_iff] at hitems
  obtain ⟨items, hreached, hitems⟩ := hitems
  exact ⟨items, hitems.symm, hreached⟩

theorem path?_of_reached? (h : ItemSet.reached? g w = some items) :
    ∃ id, (ofGrammar g).path? initial w = some id ∧ (ofGrammar g).items? id = some items := by
  have hitems := items?_path? g w
  rw [h, Option.map_some, Option.map_eq_some_iff] at hitems
  exact hitems

end Automaton

end ShiftReduce
