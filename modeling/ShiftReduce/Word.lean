import ShiftReduce.Symbol

set_option autoImplicit false

/-! # Words

A word is a finite sequence of symbols, and the empty one is epsilon. -/

namespace ShiftReduce

abbrev Word := List Symbol

namespace Word

/-- Whether `part` occurs in the word as a block of neighbours. Epsilon occurs in every word. -/
def containsWord (word part : Word) : Bool :=
  part.isPrefixOf word ||
    match word with
    | [] => false
    | _ :: rest => containsWord rest part

/-- The positions that hold a nonterminal, ascending. -/
def nonterminalPositions (word : Word) : List Nat :=
  word.zipIdx.filterMap fun (s, i) => if s.isNonterminal then some i else none

/-- The word with the dot put in before position `pos`, or at its end when it is shorter. -/
def withDot (word : Word) (pos : Nat) : Word :=
  word.take pos ++ .dot :: word.drop pos

@[simp] theorem length_withDot (word : Word) (pos : Nat) :
    (withDot word pos).length = word.length + 1 := by
  simp [withDot]; omega

theorem containsWord_iff (word part : Word) : containsWord word part = true ↔ part <:+: word := by
  induction word with
  | nil => cases part <;> simp [containsWord, List.isPrefixOf]
  | cons s rest ih =>
    rw [containsWord, Bool.or_eq_true, List.isPrefixOf_iff_prefix, ih, List.infix_cons_iff]

theorem mem_nonterminalPositions {word : Word} {i : Nat} :
    i ∈ nonterminalPositions word ↔ ∃ s, word[i]? = some s ∧ s.isNonterminal = true := by
  simp only [nonterminalPositions, List.mem_filterMap, Prod.exists, List.mem_zipIdx_iff_getElem?]
  constructor
  · rintro ⟨s, j, hs, h⟩
    split at h <;> simp_all
  · rintro ⟨s, hs, hn⟩
    exact ⟨s, i, hs, by simp [hn]⟩

end Word

end ShiftReduce
