import Mathlib.Data.List.Basic
import ShiftReduce.Grammar

set_option autoImplicit false

/-! # What the classes of productions are

The constraints go through the two words by positions, and the classes are told by shapes. A rule
with the right length and the right surroundings has a word that is not empty in the place of one
nonterminal, because what comes before it and what comes after it do not overlap in a right side of
at least the length of the left one. A single nonterminal on the left side is enough for the wider
classes whatever it becomes, so the constraints follow from each other, and classifying a rule,
admitting it, validating it and making a production of it all agree.

**`Production.Class.isContextSensitive_iff`**: what the test of the surroundings finds.
**`Production.Class.le_classify_iff`**: the class of a rule is the narrowest one whose constraint it
meets together with those of the wider classes.
**`Grammar.classification`**: rules, productions and grammars are classified by their shapes. -/

namespace ShiftReduce

variable {left right : Word}

/-! ## Shapes -/

namespace Word

/-- Whether the word is a single nonterminal. -/
def IsNonterminal (w : Word) : Prop :=
  ∃ s, w = [s] ∧ s.isNonterminal = true

/-- Whether the word is empty, a terminal, or a terminal and a nonterminal after it. -/
def IsRightLinear (w : Word) : Prop :=
  w = [] ∨ (∃ a, w = [a] ∧ a.isTerminal = true) ∨
    ∃ a s, w = [a, s] ∧ a.isTerminal = true ∧ s.isNonterminal = true

/-- Whether the second word has a word that is not empty in the place of one nonterminal of the
    first. -/
def Rewrites (left right : Word) : Prop :=
  ∃ before s after new, left = before ++ s :: after ∧ right = before ++ new ++ after ∧
    s.isNonterminal = true ∧ new ≠ []

end Word

namespace Production

namespace Class

variable {c d : Class}

/-! ## Constraints -/

theorem keepsContext_iff {i : Nat} : keepsContext left right i = true ↔
    left.take i <+: right ∧ left.drop (i + 1) <:+ right := by
  rw [keepsContext, Bool.and_eq_true, List.isPrefixOf_iff_prefix, List.isSuffixOf_iff_suffix]

/-- A word with the surroundings of a position has something between them if it is long enough. -/
theorem exists_eq_append_of_keepsContext {i : Nat} (hi : i < left.length)
    (hlength : left.length ≤ right.length) (h : keepsContext left right i = true) :
    ∃ new, right = left.take i ++ new ++ left.drop (i + 1) ∧ new ≠ [] := by
  obtain ⟨⟨rest, hrest⟩, hsuffix⟩ := keepsContext_iff.1 h
  have hsum : i + rest.length = right.length := by
    rw [← hrest, List.length_append, List.length_take, Nat.min_eq_left (Nat.le_of_lt hi)]
  -- What comes after the position does not reach back over what comes before it.
  have hshort : (left.drop (i + 1)).length < rest.length := by
    rw [List.length_drop]
    omega
  obtain ⟨new, rfl⟩ : left.drop (i + 1) <:+ rest :=
    List.suffix_of_suffix_length_le hsuffix ⟨_, hrest⟩ (Nat.le_of_lt hshort)
  refine ⟨new, by rw [← hrest, List.append_assoc], ?_⟩
  rintro rfl
  exact Nat.lt_irrefl _ hshort

theorem isContextSensitive_of_rewrites (h : Word.Rewrites left right) :
    isContextSensitive left right = true := by
  obtain ⟨before, s, after, new, rfl, rfl, hs, hnew⟩ := h
  have hlength : (before ++ s :: after).length ≤ (before ++ new ++ after).length := by
    have hpos := List.length_pos_iff.2 hnew
    simp only [List.length_append, List.length_cons]
    omega
  have hposition : before.length ∈ Word.nonterminalPositions (before ++ s :: after) :=
    Word.mem_nonterminalPositions.2 ⟨s, by simp, hs⟩
  have hkeeps : keepsContext (before ++ s :: after) (before ++ new ++ after) before.length := by
    rw [keepsContext_iff]
    refine ⟨⟨new ++ after, by simp⟩, ⟨before ++ new, by simp⟩⟩
  have hright : (before ++ new ++ after).isEmpty = false := by simp [hnew]
  rw [isContextSensitive, hright, Bool.and_eq_true]
  refine ⟨List.any_eq_true.2 ⟨s, by simp, hs⟩, ?_⟩
  rw [if_neg Bool.false_ne_true, Bool.and_eq_true, decide_eq_true_eq]
  exact ⟨hlength, List.any_eq_true.2 ⟨before.length, hposition, hkeeps⟩⟩

/-- A single nonterminal is erased, or a nonterminal is replaced by a word that is not empty. -/
theorem isContextSensitive_iff : isContextSensitive left right = true ↔
    Word.IsNonterminal left ∧ right = [] ∨ Word.Rewrites left right := by
  constructor
  · intro h
    rw [isContextSensitive, Bool.and_eq_true] at h
    obtain ⟨hany, h⟩ := h
    split at h
    · next hempty =>
      obtain ⟨s, rfl⟩ := List.length_eq_one_iff.1 (beq_iff_eq.1 h)
      exact Or.inl ⟨⟨s, rfl, by simpa using hany⟩, List.isEmpty_iff.1 hempty⟩
    · rw [Bool.and_eq_true, decide_eq_true_eq, List.any_eq_true] at h
      obtain ⟨hlength, i, hi, hkeeps⟩ := h
      obtain ⟨s, hs, hn⟩ := Word.mem_nonterminalPositions.1 hi
      obtain ⟨hlt, rfl⟩ := List.getElem?_eq_some_iff.1 hs
      obtain ⟨new, hright, hnew⟩ := exists_eq_append_of_keepsContext hlt hlength hkeeps
      refine Or.inr ⟨_, _, _, new, ?_, hright, hn, hnew⟩
      rw [List.getElem_cons_drop, List.take_append_drop]
  · rintro (⟨⟨s, rfl, hs⟩, rfl⟩ | h)
    · simp [isContextSensitive, hs]
    · exact isContextSensitive_of_rewrites h

/-- The surroundings may not share a place of the right side. -/
example : isContextSensitive [.terminal "a", .nonterminal "A", .terminal "a"] [.terminal "a"] =
    false := by decide

theorem isRegular_iff : isRegular right = true ↔ Word.IsRightLinear right := by
  match right with
  | [] => simp [isRegular, Word.IsRightLinear]
  | [a] => simp [isRegular, Word.IsRightLinear]
  | [a, s] => simp [isRegular, Word.IsRightLinear]
  | a :: s :: t :: rest => simp [isRegular, Word.IsRightLinear]

/-- A single nonterminal may become anything. -/
theorem isContextSensitive_of_isContextFree (h : isContextFree left = true) :
    isContextSensitive left right = true := by
  obtain ⟨s, rfl, hs⟩ := isContextFree_iff.1 h
  rw [isContextSensitive_iff]
  by_cases hright : right = []
  · exact Or.inl ⟨⟨s, rfl, hs⟩, hright⟩
  · exact Or.inr ⟨[], s, [], right, rfl, by simp, hs, hright⟩

/-! ## The narrowest class -/

theorem le_classify_iff :
    c ≤ classify left right ↔ ∀ d, d ≤ c → d.constraint left right = true := by
  have hlisted : (∀ d, d ≤ c → d.constraint left right = true) ↔
      ∀ d ∈ hierarchy, d ≤ c → d.constraint left right = true := by
    refine ⟨fun h d _ => h d, fun h d => h d ?_⟩
    cases d <;> decide
  rw [hlisted]
  cases hs : isContextSensitive left right <;> cases hf : isContextFree left <;>
    cases hr : isRegular right <;> cases c <;>
    simp [classify, hierarchy, constraint, le_def, rank, hs, hf, hr]

theorem contextSensitive_le_classify_iff :
    contextSensitive ≤ classify left right ↔ isContextSensitive left right = true := by
  rw [le_classify_iff]
  refine ⟨fun h => h contextSensitive (Nat.le_refl _), fun h d hd => ?_⟩
  cases d <;> simp_all [constraint, le_def, rank]

theorem contextFree_le_classify_iff :
    contextFree ≤ classify left right ↔ isContextFree left = true := by
  rw [le_classify_iff]
  refine ⟨fun h => h contextFree (Nat.le_refl _), fun h d hd => ?_⟩
  cases d <;> simp_all [constraint, le_def, rank, isContextSensitive_of_isContextFree]

theorem classify_eq_regular_iff :
    classify left right = regular ↔ isContextFree left = true ∧ isRegular right = true := by
  have heq : classify left right = regular ↔ regular ≤ classify left right := by
    cases classify left right <;> decide
  rw [heq, le_classify_iff]
  refine ⟨fun h => ⟨h contextFree (by decide), h regular (by decide)⟩, fun h d hd => ?_⟩
  cases d <;> simp_all [constraint, isContextSensitive_of_isContextFree]

theorem mem_lineage_iff : d ∈ c.lineage ↔ d ≤ c := by
  cases c <;> cases d <;> decide

theorem admits_iff_le_classify :
    c.admits left right = true ↔ c ≤ classify left right := by
  simp only [admits, List.all_eq_true, mem_lineage_iff, le_classify_iff]

/-! ## Refusals -/

/-- What refuses a rule is the class right above its own. -/
theorem exists_refusing?_eq (h : ¬c ≤ classify left right) :
    ∃ above, c.refusing? left right = some above ∧
      above.rank = (classify left right).rank + 1 := by
  cases hs : isContextSensitive left right <;> cases hf : isContextFree left <;>
    cases hr : isRegular right <;> cases c <;>
    simp [classify, refusing?, lineage, hierarchy, constraint, le_def, rank, hs, hf, hr] at h ⊢

theorem exists_validate_eq_error (h : ¬c ≤ classify left right) :
    ∃ above, above.rank = (classify left right).rank + 1 ∧
      c.validate left right = .error (.malformedProduction above left right) := by
  obtain ⟨above, habove, hrank⟩ := exists_refusing?_eq h
  exact ⟨above, hrank, by rw [validate, habove]⟩

end Class

variable {tag : Class} {e : GrammarError}

theorem ofClass_eq_ok (h : tag.admits left right = true) :
    ofClass tag left right = .ok ⟨left, right, tag, h⟩ := by
  have hvalid := Class.validate_eq_ok_iff.2 h
  unfold ofClass
  split
  · rfl
  · next hinvalid => nomatch hvalid.symm.trans hinvalid

theorem ofClass_eq_error (h : tag.validate left right = .error e) :
    ofClass tag left right = .error e := by
  unfold ofClass
  split
  · next hvalid => nomatch h.symm.trans hvalid
  · next hinvalid => exact congrArg Except.error (Except.error.inj (hinvalid.symm.trans h))

theorem exists_ofClass_eq_ok_iff :
    (∃ p, ofClass tag left right = .ok p) ↔ tag.admits left right = true := by
  constructor
  · rintro ⟨p, hp⟩
    by_contra hnot
    obtain ⟨above, -, herror⟩ := Class.exists_validate_eq_error (mt Class.admits_iff_le_classify.2 hnot)
    nomatch hp.symm.trans (ofClass_eq_error herror)
  · intro h
    exact ⟨_, ofClass_eq_ok h⟩

/-! ## Classification -/

/-- How a rule is classified. The shapes of its words tell its class, the classes that are not above
    this one admit it, find it valid and make productions of it, and every other one is refused with
    the name of the class right above. -/
structure Class.IsClassified (left right : Word) : Prop where
  contextSensitive_le : contextSensitive ≤ classify left right ↔
    Word.IsNonterminal left ∧ right = [] ∨ Word.Rewrites left right
  contextFree_le : contextFree ≤ classify left right ↔ Word.IsNonterminal left
  eq_regular : classify left right = regular ↔
    Word.IsNonterminal left ∧ Word.IsRightLinear right
  admits : ∀ c : Class, c.admits left right = true ↔ c ≤ classify left right
  validate : ∀ c : Class, c.validate left right = .ok () ↔ c ≤ classify left right
  ofClass : ∀ c : Class, (∃ p, ofClass c left right = .ok p) ↔ c ≤ classify left right
  rule : ∀ c p, Production.ofClass c left right = .ok p →
    p.left = left ∧ p.right = right ∧ p.tag = c
  unrestricted : Production.ofClass unrestricted left right =
    .ok (Production.unrestricted left right)
  refusal : ∀ c, ¬c ≤ classify left right → ∃ above, above.rank = (classify left right).rank + 1 ∧
    c.validate left right = .error (.malformedProduction above left right) ∧
    Production.ofClass c left right = .error (.malformedProduction above left right)

theorem Class.isClassified (left right : Word) : IsClassified left right where
  contextSensitive_le := contextSensitive_le_classify_iff.trans isContextSensitive_iff
  contextFree_le := contextFree_le_classify_iff.trans isContextFree_iff
  eq_regular := by
    rw [classify_eq_regular_iff, isContextFree_iff, isRegular_iff]
    rfl
  admits _ := admits_iff_le_classify
  validate _ := validate_eq_ok_iff.trans admits_iff_le_classify
  ofClass _ := exists_ofClass_eq_ok_iff.trans admits_iff_le_classify
  rule c p hp := by
    have hadmits := exists_ofClass_eq_ok_iff.1 ⟨p, hp⟩
    rw [ofClass_eq_ok hadmits] at hp
    obtain rfl := Except.ok.inj hp
    exact ⟨rfl, rfl, rfl⟩
  unrestricted := ofClass_eq_ok (admits_unrestricted left right)
  refusal c hc := by
    obtain ⟨above, hrank, herror⟩ := exists_validate_eq_error hc
    exact ⟨above, hrank, herror, ofClass_eq_error herror⟩

theorem tag_le_narrowestClass (p : Production) : p.tag ≤ p.narrowestClass :=
  Class.admits_iff_le_classify.1 p.admitted

end Production

namespace Grammar

/-- Whether the class admits every production. -/
def IsAdmittedBy (g : Grammar) (c : Production.Class) : Prop :=
  ∀ p ∈ g.productions, c.admits p.left p.right = true

theorem le_narrowestClass_iff_isAdmittedBy {g : Grammar} {c : Production.Class} :
    c ≤ g.narrowestClass ↔ g.IsAdmittedBy c := by
  rw [le_narrowestClass_iff]
  exact forall₂_congr fun p _ => Production.Class.admits_iff_le_classify.symm

/-- **Rules are classified by their shapes.** The class that a production was made for is never above
    its narrowest one, and the class of a grammar is the narrowest that admits all productions. -/
theorem classification : (∀ left right, Production.Class.IsClassified left right) ∧
    (∀ p : Production, p.tag ≤ p.narrowestClass) ∧
    ∀ (g : Grammar) (c : Production.Class), c ≤ g.narrowestClass ↔ g.IsAdmittedBy c :=
  ⟨Production.Class.isClassified, Production.tag_le_narrowestClass,
    fun _ _ => le_narrowestClass_iff_isAdmittedBy⟩

end Grammar

end ShiftReduce
