import Std.Data.ExtTreeSet

set_option autoImplicit false

/-! # Symbols and alphabets

A symbol is a named terminal or nonterminal, or one of three nameless sentinels: the start symbol
`S′` of an augmented grammar, the end of the input `$`, and the dot that marks a position in a
right side. Symbols are ordered (terminals, nonterminals, sentinels; names by code point), so an
alphabet is a set whose members have one listing. -/

namespace ShiftReduce

inductive Symbol where
  | terminal (name : String)
  | nonterminal (name : String)
  | start
  | eof
  | dot
deriving DecidableEq, Repr, Inhabited

namespace Symbol

def isTerminal : Symbol → Bool
  | terminal _ => true
  | _ => false

/-- `S′` counts as a nonterminal: it has exactly one production. -/
def isNonterminal : Symbol → Bool
  | nonterminal _ | start => true
  | _ => false

def isSentinel : Symbol → Bool
  | start | eof | dot => true
  | _ => false

def name? : Symbol → Option String
  | terminal name | nonterminal name => some name
  | _ => none

/-- Whether the symbol has a name, and it is `name`. -/
def isNamed (s : Symbol) (name : String) : Bool :=
  s.name? == some name

/-! ## Order -/

/-- The place of the symbol's kind in the order of symbols. -/
def rank : Symbol → Nat
  | terminal _ => 0
  | nonterminal _ => 1
  | start => 2
  | eof => 3
  | dot => 4

instance : Ord Symbol where
  compare := compareLex (compareOn rank) (compareOn fun s => s.name?.getD "")

theorem compare_def (a b : Symbol) :
    compare a b = (compare a.rank b.rank).then (compare (a.name?.getD "") (b.name?.getD "")) :=
  rfl

instance : Std.TransOrd Symbol :=
  inferInstanceAs
    (Std.TransCmp (compareLex (compareOn rank) (compareOn fun s => s.name?.getD "")))

instance : Std.LawfulEqOrd Symbol where
  eq_of_compare {a b} h := by
    rw [compare_def, Ordering.then_eq_eq, Nat.compare_eq_eq] at h
    obtain ⟨hr, hn⟩ := h
    have hn := Std.LawfulEqOrd.eq_of_compare hn
    cases a <;> cases b <;> simp_all [rank, name?]

end Symbol

/-! ## Alphabets -/

/-- A finite set of symbols. Two of them are equal when they have the same members. -/
abbrev SymbolSet := Std.ExtTreeSet Symbol

/-- A set, of symbols or of anything ordered, lists each of its members once. -/
theorem nodup_toList {α : Type} [Ord α] [Std.TransOrd α] [Std.LawfulEqOrd α]
    (xs : Std.ExtTreeSet α) : xs.toList.Nodup :=
  Std.ExtTreeSet.distinct_toList.imp fun {a b} (h : ¬compare a b = .eq) he =>
    h (Std.LawfulEqOrd.compare_eq_iff_eq.2 he)

end ShiftReduce
