import Std.Data.ExtTreeSet
import ShiftReduce.Grammar.Augmented

set_option autoImplicit false

/-! # Items

An item is a production with a dot somewhere in its right side. An item may also name a production
that the grammar does not have, or have its dot past the end: such an item never moves. -/

namespace ShiftReduce

structure Item where
  production : ProductionId
  dot : Nat
deriving DecidableEq, Repr, Inhabited

namespace Item

/-- Items are ordered by production, then by dot. -/
instance : Ord Item where
  compare := compareLex (compareOn production) (compareOn dot)

theorem compare_def (i j : Item) :
    compare i j = (compare i.production j.production).then (compare i.dot j.dot) := rfl

instance : Std.TransOrd Item :=
  inferInstanceAs (Std.TransCmp (compareLex (compareOn production) (compareOn dot)))

instance : Std.LawfulEqOrd Item where
  eq_of_compare {i j} h := by
    rw [compare_def, Ordering.then_eq_eq, Nat.compare_eq_eq, Nat.compare_eq_eq] at h
    cases i; cases j; simp_all

theorem compare_eq_lt_iff {i j : Item} : compare i j = .lt ↔
    i.production < j.production ∨ i.production = j.production ∧ i.dot < j.dot := by
  rw [compare_def, Ordering.then_eq_lt, Nat.compare_eq_lt, Nat.compare_eq_eq, Nat.compare_eq_lt]

/-- The item with its dot one place further. -/
def advance (i : Item) : Item where
  production := i.production
  dot := i.dot + 1

/-- The symbol right after the dot. -/
def next? (g : AugmentedGrammar) (i : Item) : Option Symbol := do
  (← g.production? i.production).right[i.dot]?

/-- Whether nothing comes after the dot. -/
def isComplete (g : AugmentedGrammar) (i : Item) : Bool :=
  (g.production? i.production).any fun p => p.right.length ≤ i.dot

def lhs? (g : AugmentedGrammar) (i : Item) : Option Symbol := do
  (← g.production? i.production).lhs?

/-- The right side with the dot in it. -/
def dotted? (g : AugmentedGrammar) (i : Item) : Option Word :=
  (g.production? i.production).map fun p => Word.withDot p.right i.dot

/-- Whether the grammar has the production, and the dot is not past the end of its right side. -/
def InRange (g : AugmentedGrammar) (i : Item) : Prop :=
  ∃ p, g.production? i.production = some p ∧ i.dot ≤ p.right.length

/-- The initial items of the productions of the nonterminal after the dot. -/
def predictions (g : AugmentedGrammar) (i : Item) : List Item :=
  match i.next? g with
  | some s => if s.isNonterminal then (g.productionsOf s).map fun (id, _) => ⟨id, 0⟩ else []
  | none => []

theorem next?_eq_some_iff {g : AugmentedGrammar} {i : Item} {s : Symbol} :
    i.next? g = some s ↔
      ∃ p, g.production? i.production = some p ∧ p.right[i.dot]? = some s := by
  simp only [next?, Option.bind_eq_bind, Option.bind_eq_some_iff]

/-- No sentinel comes after a dot. -/
theorem isSentinel_of_next? {g : AugmentedGrammar} {i : Item} {s : Symbol}
    (h : i.next? g = some s) : s.isSentinel = false := by
  obtain ⟨p, hp, hs⟩ := next?_eq_some_iff.1 h
  exact AugmentedGrammar.isSentinel_of_mem_right hp (List.mem_of_getElem? hs)

theorem lhs?_eq_some_iff {g : AugmentedGrammar} {i : Item} {s : Symbol} :
    i.lhs? g = some s ↔ ∃ p, g.production? i.production = some p ∧ p.lhs? = some s := by
  simp only [lhs?, Option.bind_eq_bind, Option.bind_eq_some_iff]

theorem isComplete_iff {g : AugmentedGrammar} {i : Item} :
    i.isComplete g = true ↔
      ∃ p, g.production? i.production = some p ∧ p.right.length ≤ i.dot := by
  simp only [isComplete, Option.any_eq_true, decide_eq_true_eq]

end Item

/-- A finite set of items. Two of them are equal when they have the same members. -/
abbrev ItemSet := Std.ExtTreeSet Item

/-- The items of a grammar: every production with its dot at each of its places. -/
def AugmentedGrammar.items (g : AugmentedGrammar) : List Item :=
  g.productions.zipIdx.flatMap fun (p, id) => (List.range (p.right.length + 1)).map fun d => ⟨id, d⟩

theorem AugmentedGrammar.mem_items {g : AugmentedGrammar} {i : Item} :
    i ∈ g.items ↔ i.InRange g := by
  simp only [items, List.mem_flatMap, Prod.exists, List.mem_zipIdx_iff_getElem?, List.mem_map,
    List.mem_range, Item.InRange, g.production?_eq_getElem?]
  constructor
  · rintro ⟨p, id, hp, d, hd, rfl⟩
    exact ⟨p, hp, Nat.le_of_lt_succ hd⟩
  · rintro ⟨p, hp, hd⟩
    exact ⟨p, i.production, hp, i.dot, Nat.lt_succ_of_le hd, rfl⟩

end ShiftReduce
