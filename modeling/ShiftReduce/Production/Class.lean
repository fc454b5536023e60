import ShiftReduce.Word

set_option autoImplicit false

/-! # The hierarchy of production classes

The four classes of rules `left -> right`, from the least to the most restrictive. A class admits a
pair of words when the constraint of the class and those of all wider classes hold, so the classes
that admit a pair are always the first ones of the hierarchy. -/

namespace ShiftReduce

inductive Production.Class where
  | unrestricted
  | contextSensitive
  | contextFree
  | regular
deriving DecidableEq, Repr, Inhabited

namespace Production.Class

/-- The classes from the widest to the narrowest. -/
def hierarchy : List Class :=
  [unrestricted, contextSensitive, contextFree, regular]

/-- The position of the class in the hierarchy. -/
def rank : Class → Nat
  | unrestricted => 0
  | contextSensitive => 1
  | contextFree => 2
  | regular => 3

/-- A class is below another when it is wider. -/
instance : LE Class where
  le c d := c.rank ≤ d.rank

theorem le_def (c d : Class) : c ≤ d ↔ c.rank ≤ d.rank := Iff.rfl

instance : DecidableRel (α := Class) (· ≤ ·) :=
  fun c d => inferInstanceAs (Decidable (c.rank ≤ d.rank))

/-- The wider of two classes. -/
instance : Min Class where
  min c d := if c ≤ d then c else d

def text : Class → String
  | unrestricted => "unrestricted"
  | contextSensitive => "context-sensitive"
  | contextFree => "context-free"
  | regular => "regular"

/-! ## Constraints -/

/-- Whether `right` keeps what surrounds position `i` of `left`: it starts with the symbols before
    `i` and ends with those after it. -/
def keepsContext (left right : Word) (i : Nat) : Bool :=
  (left.take i).isPrefixOf right && (left.drop (i + 1)).isSuffixOf right

/-- The rule replaces one nonterminal of `left` by a nonempty word and keeps its context; a single
    nonterminal may also be erased. -/
def isContextSensitive (left right : Word) : Bool :=
  left.any Symbol.isNonterminal &&
    if right.isEmpty then left.length == 1
    else
      left.length ≤ right.length && (Word.nonterminalPositions left).any (keepsContext left right)

def isContextFree (left : Word) : Bool :=
  match left with
  | [s] => s.isNonterminal
  | _ => false

/-- Right linear: nothing, a terminal, or a terminal and a nonterminal. -/
def isRegular (right : Word) : Bool :=
  match right with
  | [] => true
  | [a] => a.isTerminal
  | [a, b] => a.isTerminal && b.isNonterminal
  | _ => false

/-- The constraint that the class adds to those of the wider classes. -/
def constraint (c : Class) (left right : Word) : Bool :=
  match c with
  | unrestricted => true
  | contextSensitive => isContextSensitive left right
  | contextFree => isContextFree left
  | regular => isRegular right

/-! ## Classification -/

/-- The classes that a rule of this class belongs to, the widest first. -/
def lineage (c : Class) : List Class :=
  hierarchy.takeWhile (· ≤ c)

def admits (c : Class) (left right : Word) : Bool :=
  c.lineage.all (·.constraint left right)

/-- The first class of the lineage whose constraint fails. -/
def refusing? (c : Class) (left right : Word) : Option Class :=
  c.lineage.find? fun d => !d.constraint left right

/-- The narrowest class that admits the pair of words. -/
def classify (left right : Word) : Class :=
  (hierarchy.takeWhile (·.constraint left right)).getLast?.getD unrestricted

theorem refusing?_eq_none_iff {c : Class} {left right : Word} :
    c.refusing? left right = none ↔ c.admits left right = true := by
  simp [refusing?, admits]

theorem isContextFree_iff {left : Word} :
    isContextFree left = true ↔ ∃ s, left = [s] ∧ s.isNonterminal = true := by
  unfold isContextFree
  split <;> simp_all

/-- A rule in the context-free class or a narrower one meets the context-free constraint. -/
theorem isContextFree_of_le_classify {left right : Word}
    (h : contextFree ≤ classify left right) : isContextFree left = true := by
  simp only [classify, hierarchy, constraint] at h
  by_cases hs : isContextSensitive left right = true <;>
    by_cases hf : isContextFree left = true <;> simp_all [le_def, rank]

theorem le_min_iff {c d e : Class} : c ≤ min d e ↔ c ≤ d ∧ c ≤ e := by
  simp only [min]
  split <;> simp only [le_def] at * <;> omega

theorem le_regular (c : Class) : c ≤ regular := by
  cases c <;> decide

theorem admits_unrestricted (left right : Word) : unrestricted.admits left right = true := rfl

end Production.Class

end ShiftReduce
