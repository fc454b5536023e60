import ShiftReduce.GrammarError

set_option autoImplicit false

/-! # Productions

A production is a rule `left -> right` together with a class that admits it. Two productions with
the same words are the same rule, whatever their classes.

**`Production.pairwise_distinct`**: of productions with the same rule only the first is kept. -/

namespace ShiftReduce

/-- The rule `left -> right`. The class was asked for when the production was made, and the rule
    may belong to a narrower one. -/
structure Production where
  left : Word
  right : Word
  tag : Production.Class
  admitted : tag.admits left right = true
deriving DecidableEq, Repr

namespace Production

/-- Refuses a rule that the class does not admit. -/
def Class.validate (c : Class) (left right : Word) : Except GrammarError Unit :=
  match c.refusing? left right with
  | none => .ok ()
  | some violated => .error (.malformedProduction violated left right)

theorem Class.validate_eq_ok_iff {c : Class} {left right : Word} :
    c.validate left right = .ok () ↔ c.admits left right = true := by
  rw [← Class.refusing?_eq_none_iff, validate]
  split <;> simp_all

/-- The production `left -> right` of the given class, if the class admits the rule. -/
def ofClass (tag : Class) (left right : Word) : Except GrammarError Production :=
  match h : tag.validate left right with
  | .ok () => .ok ⟨left, right, tag, Class.validate_eq_ok_iff.1 h⟩
  | .error e => .error e

def unrestricted (left right : Word) : Production :=
  ⟨left, right, .unrestricted, Class.admits_unrestricted left right⟩

def contextFree (lhs : Symbol) (right : Word) : Except GrammarError Production :=
  ofClass .contextFree [lhs] right

/-- The production `S′ -> s` of an augmented grammar. -/
def augmented (s : Symbol) : Production where
  left := [.start]
  right := [s]
  tag := .contextFree
  admitted := by
    simp [Class.admits, Class.lineage, Class.hierarchy, Class.le_def, Class.rank,
      Class.constraint, Class.isContextSensitive, Class.isContextFree, Class.keepsContext,
      Word.nonterminalPositions, Symbol.isNonterminal, List.isSuffixOf]

/-- The nonterminal on the left side, when it stands there alone. -/
def lhs? (p : Production) : Option Symbol :=
  match p.left with
  | [s] => if s.isNonterminal then some s else none
  | _ => none

/-- The symbols of the left side, then those of the right side. -/
def symbols (p : Production) : Word :=
  p.left ++ p.right

def isEpsilon (p : Production) : Bool :=
  p.right.isEmpty

/-- The narrowest class that admits the rule. -/
def narrowestClass (p : Production) : Class :=
  Class.classify p.left p.right

/-- The productions whose left side is `s` alone, each with its place in the list. -/
def alternatives (ps : List Production) (s : Symbol) : List (ProductionId × Production) :=
  ps.zipIdx.filterMap fun (p, id) => if p.lhs? = some s then some (id, p) else none

theorem mem_alternatives {ps : List Production} {s : Symbol} {id : ProductionId} {p : Production} :
    (id, p) ∈ alternatives ps s ↔ ps[id]? = some p ∧ p.lhs? = some s := by
  simp only [alternatives, List.mem_filterMap, Prod.exists, List.mem_zipIdx_iff_getElem?]
  constructor
  · rintro ⟨q, i, hq, h⟩
    split at h <;> simp_all
  · rintro ⟨hp, hs⟩
    exact ⟨p, id, hp, by simp [hs]⟩

theorem isNonterminal_of_lhs? {p : Production} {s : Symbol} (h : p.lhs? = some s) :
    s.isNonterminal = true := by
  unfold lhs? at h
  split at h
  · split at h
    · obtain rfl := Option.some.inj h
      assumption
    · simp at h
  · simp at h

theorem left_eq_of_lhs? {p : Production} {s : Symbol} (h : p.lhs? = some s) : p.left = [s] := by
  unfold lhs? at h
  split at h
  · next t hleft =>
    obtain rfl : t = s := (Option.ite_none_right_eq_some.1 h).2 |> Option.some.inj
    exact hleft
  · simp at h

/-- No production is listed twice. -/
theorem nodup_alternatives (ps : List Production) (s : Symbol) :
    ((alternatives ps s).map Prod.fst).Nodup := by
  have h : (ps.zipIdx.map Prod.snd).Nodup := by
    rw [List.zipIdx_map_snd]
    exact List.nodup_range' 1
  rw [List.Nodup, List.pairwise_map] at h ⊢
  rw [alternatives, List.pairwise_filterMap]
  refine h.imp fun {a b} hne c hc d hd => ?_
  rw [← Option.some.inj (Option.ite_none_right_eq_some.1 hc).2,
    ← Option.some.inj (Option.ite_none_right_eq_some.1 hd).2]
  exact hne

/-! ## Rules -/

/-- Whether two productions are the same rule. -/
def sameRule (p q : Production) : Bool :=
  p.left == q.left && p.right == q.right

/-- The productions without those whose rule came before, in order. -/
def distinct : List Production → List Production
  | [] => []
  | p :: rest => p :: (distinct rest).filter (!p.sameRule ·)

theorem sameRule_iff {p q : Production} :
    p.sameRule q = true ↔ p.left = q.left ∧ p.right = q.right := by
  simp [sameRule]

theorem pairwise_distinct (ps : List Production) :
    (distinct ps).Pairwise fun p q => p.sameRule q = false := by
  induction ps with
  | nil => exact List.Pairwise.nil
  | cons p rest ih =>
    refine List.Pairwise.cons (fun q hq => ?_) (ih.filter _)
    simpa using (List.mem_filter.1 hq).2

/-- Rules that are distinct are all kept. -/
theorem distinct_eq_self {ps : List Production}
    (h : ps.Pairwise fun p q => p.sameRule q = false) : distinct ps = ps := by
  induction ps with
  | nil => rfl
  | cons p rest ih =>
    obtain ⟨hp, hrest⟩ := List.pairwise_cons.1 h
    rw [distinct, ih hrest, List.filter_eq_self.2 fun q hq => by simp [hp q hq]]

end Production

end ShiftReduce
