import Mathlib.Data.List.Basic
import ShiftReduce.Proofs.ActionTable.Candidates

set_option autoImplicit false

/-! # Shifts by the dot

A symbol may be shifted when the dot stands right before it in the right side of an item. Writing the
dot into the right side and searching the word for it comes to the same as looking the symbol up at
the place of the dot: no right side has a dot of its own, so the search finds the one that was put
in. This goes for every item. A dot past the end is put in at the end, where nothing comes after it,
and an item whose production the grammar does not have makes no word to be searched.

**`Word.append_dot_eq_withDot_iff`**: the dot that was put in is the only one.
**`Item.next?_eq_some_iff_dotted`**, **`Item.isComplete_iff_dotted`**: items by their words.
**`AugmentedGrammar.dottedRule`**: a table shifts what its items have behind the dot. -/

namespace ShiftReduce

variable {g : AugmentedGrammar} {i : Item} {s : Symbol} {pos : Nat}

/-! ## Words with a dot -/

namespace Word

variable {w : Word}

theorem getElem?_withDot (w : Word) (pos : Nat) :
    (w.withDot pos)[min pos w.length]? = some .dot := by
  rw [withDot, ← List.length_take, List.getElem?_append_right (Nat.le_refl _), Nat.sub_self]
  rfl

theorem eraseIdx_withDot (w : Word) (pos : Nat) :
    (w.withDot pos).eraseIdx (min pos w.length) = w := by
  rw [withDot, ← List.length_take, List.eraseIdx_append_of_length_le (Nat.le_refl _), Nat.sub_self]
  exact List.take_append_drop pos w

/-- The dot is found nowhere but where it was put in. -/
theorem append_dot_eq_withDot_iff (h : .dot ∉ w) {before after : Word} :
    before ++ .dot :: after = w.withDot pos ↔ before = w.take pos ∧ after = w.drop pos := by
  have htake : .dot ∉ w.take pos := fun hmem => h (List.mem_of_mem_take hmem)
  have hdrop : .dot ∉ w.drop pos := fun hmem => h (List.mem_of_mem_drop hmem)
  rw [withDot, eq_comm, List.append_cons_inj_of_notMem htake hdrop, eq_self, true_and,
    eq_comm (a := before), eq_comm (a := after)]

theorem infix_withDot_iff (h : .dot ∉ w) : [.dot, s] <:+: w.withDot pos ↔ w[pos]? = some s := by
  rw [← List.head?_drop, List.head?_eq_some_iff]
  constructor
  · rintro ⟨before, after, hsplit⟩
    rw [List.append_assoc] at hsplit
    exact ⟨after, ((append_dot_eq_withDot_iff h).1 hsplit).2.symm⟩
  · rintro ⟨after, hdrop⟩
    refine ⟨w.take pos, after, ?_⟩
    rw [List.append_assoc]
    exact (append_dot_eq_withDot_iff h).2 ⟨rfl, hdrop.symm⟩

theorem suffix_withDot_iff (h : .dot ∉ w) : [.dot] <:+ w.withDot pos ↔ w.length ≤ pos := by
  rw [← List.drop_eq_nil_iff]
  constructor
  · rintro ⟨before, hsplit⟩
    exact ((append_dot_eq_withDot_iff h).1 hsplit).2.symm
  · intro hdrop
    exact ⟨w.take pos, (append_dot_eq_withDot_iff h).2 ⟨rfl, hdrop.symm⟩⟩

end Word

/-! ## Items by their words -/

theorem AugmentedGrammar.dot_notMem_right {id : ProductionId} {p : Production}
    (h : g.production? id = some p) : .dot ∉ p.right :=
  fun hdot => Bool.noConfusion (isSentinel_of_mem_right h hdot)

namespace Item

theorem dotted?_eq_some_iff {w : Word} : i.dotted? g = some w ↔
    ∃ p, g.production? i.production = some p ∧ Word.withDot p.right i.dot = w :=
  Option.map_eq_some_iff

/-- The symbol after the dot is the one that the word with the dot in it has there. -/
theorem next?_eq_some_iff_dotted : i.next? g = some s ↔
    ∃ w, i.dotted? g = some w ∧ w.containsWord [.dot, s] = true := by
  simp only [next?_eq_some_iff, dotted?_eq_some_iff, Word.containsWord_iff]
  constructor
  · rintro ⟨p, hp, hs⟩
    exact ⟨_, ⟨p, hp, rfl⟩, (Word.infix_withDot_iff (AugmentedGrammar.dot_notMem_right hp)).2 hs⟩
  · rintro ⟨_, ⟨p, hp, rfl⟩, hs⟩
    exact ⟨p, hp, (Word.infix_withDot_iff (AugmentedGrammar.dot_notMem_right hp)).1 hs⟩

theorem isComplete_iff_dotted : i.isComplete g = true ↔
    ∃ w, i.dotted? g = some w ∧ List.isSuffixOf [.dot] w = true := by
  simp only [isComplete_iff, dotted?_eq_some_iff, List.isSuffixOf_iff_suffix]
  constructor
  · rintro ⟨p, hp, hdot⟩
    exact ⟨_, ⟨p, hp, rfl⟩, (Word.suffix_withDot_iff (AugmentedGrammar.dot_notMem_right hp)).2 hdot⟩
  · rintro ⟨_, ⟨p, hp, rfl⟩, hdot⟩
    exact ⟨p, hp, (Word.suffix_withDot_iff (AugmentedGrammar.dot_notMem_right hp)).1 hdot⟩

end Item

/-! ## Shifts of a table -/

theorem Choices.head?_actions_eq_shift_iff {c : Choices} {target : StateId} :
    c.actions.head? = some (.shift target) ↔ c.shift? = some target := by
  unfold actions
  cases hshift : c.shift? with
  | some other => simp
  | none =>
    cases hreduce : c.reductions with
    | cons id rest => simp
    | nil => cases haccepts : c.accepts <;> simp

/-- A shift comes first in a cell when an item of the state has its dot before the lookahead. -/
theorem TableSource.exists_head?_eq_shift_iff {t : TableSource} {id : StateId} {items : ItemSet}
    {found : List Action} (ht : t.automaton = .ofGrammar g)
    (hitems : t.automaton.items? id = some items) (hfound : t.candidates id s = .ok found) :
    (∃ target, found.head? = some (.shift target)) ↔ ∃ i ∈ items, i.next? g = some s := by
  obtain ⟨st, hst, -, rfl⟩ := candidates_eq_ok_iff.1 hfound
  have hexact := isExact_choices (s := s) ht hst
  have hst' : t.automaton.items? id = some st.items := Automaton.items?_eq_some_iff.2 ⟨st, hst, rfl⟩
  obtain rfl := Option.some.inj (hst'.symm.trans hitems)
  have hgrammar : t.automaton.grammar = g := by rw [ht]; rfl
  have hsome := hexact.isSome_shift?_iff
  rw [hgrammar] at hsome
  rw [← hsome, Option.isSome_iff_exists]
  simp only [← actions_choices, Choices.head?_actions_eq_shift_iff]

namespace AugmentedGrammar

/-- Whether the items of a grammar can be told by the words that they make with the dot put in: what
    comes next, whether something does, and what a table with any FOLLOW sets and options shifts. -/
structure DottedRule (g : AugmentedGrammar) : Prop where
  next?_iff : ∀ (i : Item) (s : Symbol), i.next? g = some s ↔
    ∃ w, i.dotted? g = some w ∧ w.containsWord [.dot, s] = true
  isComplete_iff : ∀ i : Item, i.isComplete g = true ↔
    ∃ w, i.dotted? g = some w ∧ List.isSuffixOf [.dot] w = true
  shifts_iff : ∀ (t : TableSource) (id : StateId) (items : ItemSet) (s : Symbol)
    (found : List Action), t.automaton = .ofGrammar g → t.automaton.items? id = some items →
    t.candidates id s = .ok found →
    ((∃ target, found.head? = some (.shift target)) ↔
      ∃ i ∈ items, ∃ w, i.dotted? g = some w ∧ w.containsWord [.dot, s] = true)

/-- **What comes next in an item stands behind the dot in its word**, whatever the item and the
    symbol are. The word has one symbol more than the right side, which is the dot, at its place or
    at the end, and without it the word is the right side again. -/
theorem dottedRule (g : AugmentedGrammar) : g.DottedRule ∧ ∀ (w : Word) (pos : Nat),
    (w.withDot pos).length = w.length + 1 ∧ (w.withDot pos)[min pos w.length]? = some .dot ∧
      (w.withDot pos).eraseIdx (min pos w.length) = w := by
  refine ⟨⟨fun i s => Item.next?_eq_some_iff_dotted, fun i => Item.isComplete_iff_dotted, ?_⟩, ?_⟩
  · intro t id items s found ht hitems hfound
    simp only [← Item.next?_eq_some_iff_dotted]
    exact TableSource.exists_head?_eq_shift_iff ht hitems hfound
  · intro w pos
    exact ⟨Word.length_withDot w pos, Word.getElem?_withDot w pos, Word.eraseIdx_withDot w pos⟩

end AugmentedGrammar

end ShiftReduce
