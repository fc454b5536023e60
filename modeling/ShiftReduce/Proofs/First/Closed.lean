import ShiftReduce.Derivation
import ShiftReduce.First

set_option autoImplicit false

/-! # FIRST sets go down along derivations

The passes stop at a table that is closed: what it says about a right side it says about the left
side. So rewriting a word never lets it start with anything new.

**`FirstTable.has_entry_extend_iff`**: what a table tells once a production has been taken up.
**`FirstTable.firstOf_within_of_derives`**: what a derived word can start with the first word can
start with. -/

namespace ShiftReduce

/-- Whether everything that the one set allows is allowed by the other. -/
def FirstSet.Within (f f' : FirstSet) : Prop :=
  (∀ x ∈ f.terminals, x ∈ f'.terminals) ∧ (f.nullable = true → f'.nullable = true)

theorem FirstSet.Within.refl (f : FirstSet) : f.Within f :=
  ⟨fun _ h => h, fun h => h⟩

theorem FirstSet.Within.trans {f f' f'' : FirstSet} (h : f.Within f') (h' : f'.Within f'') :
    f.Within f'' :=
  ⟨fun x hx => h'.1 x (h.1 x hx), fun hn => h'.2 (h.2 hn)⟩

/-- Whether the symbol is one to start with or, when none is given, there need not be any. -/
def FirstSet.has (f : FirstSet) : Option Symbol → Bool
  | some x => x ∈ f.terminals
  | none => f.nullable

@[simp] theorem FirstSet.has_some_iff {f : FirstSet} {x : Symbol} :
    f.has (some x) = true ↔ x ∈ f.terminals := decide_eq_true_iff

@[simp] theorem FirstSet.has_none (f : FirstSet) : f.has none = f.nullable := rfl

theorem FirstSet.within_iff {f f' : FirstSet} :
    f.Within f' ↔ ∀ o, f.has o = true → f'.has o = true := by
  simp [Within, Option.forall, and_comm]

namespace FirstTable

variable {ps qs : List Production} {t : FirstTable} {u v u' v' : Word} {s x : Symbol}
  {o : Option Symbol} {p : Production}

/-! ## What a table tells -/

theorem firstOf_terminal (h : s.isTerminal = true) (rest : Word) :
    t.firstOf (s :: rest) = ⟨{s}, false⟩ := by
  cases s with
  | terminal name => rfl
  | _ => simp [Symbol.isTerminal] at h

theorem firstOf_nonterminal (h : s.isNonterminal = true) (rest : Word) :
    t.firstOf (s :: rest) =
      if t.isNullable s then (t.firstOf rest).including (t.sets.entry s)
      else ⟨t.sets.entry s, false⟩ := by
  cases s with
  | nonterminal name => rw [firstOf]; all_goals simp
  | start => rw [firstOf]; all_goals simp
  | _ => simp [Symbol.isNonterminal] at h

/-- What the table keeps for a symbol. -/
def entry (t : FirstTable) (s : Symbol) : FirstSet :=
  ⟨t.sets.entry s, t.isNullable s⟩

theorem firstOf_singleton (h : s.isNonterminal = true) :
    t.firstOf [s] = ⟨t.sets.entry s, t.isNullable s⟩ := by
  rw [firstOf_nonterminal h]
  split
  · next hnull =>
    rw [firstOf, FirstSet.including, hnull]
    congr 1
    exact Std.ExtTreeSet.ext_mem fun x => by simp
  · next hnull => rw [Bool.not_eq_true] at hnull; rw [hnull]

theorem mem_nullable_iff : s ∈ t.nullable ↔ (t.entry s).has none = true :=
  Std.ExtTreeSet.contains_iff_mem.symm

/-- Taking up a production adds what is told of its right side to what is told of its left side. -/
theorem has_entry_extend_iff : ((t.extend p).entry s).has o = true ↔
    (t.entry s).has o = true ∨ p.lhs? = some s ∧ (t.firstOf p.right).has o = true := by
  unfold extend
  cases hp : p.lhs? with
  | none => simp
  | some a =>
    cases o with
    | some x => simp [entry, absorb, Family.mem_entry_add]
    | none =>
      cases hnull : (t.firstOf p.right).nullable with
      | true => simp [entry, absorb, isNullable, hnull, or_comm]
      | false => simp [entry, absorb, isNullable, hnull]

/-! ## Words of two parts -/

/-- The second part counts when the first one can vanish. -/
theorem mem_firstOf_append_iff : x ∈ (t.firstOf (u ++ v)).terminals ↔
    x ∈ (t.firstOf u).terminals ∨
      (t.firstOf u).nullable = true ∧ x ∈ (t.firstOf v).terminals := by
  fun_induction firstOf t u with
  | case1 => simp
  | case2 name rest => simp [firstOf]
  | case3 rest => simp [firstOf]
  | case4 rest ih => simpa [firstOf] using ih
  | case5 s rest h1 h2 h3 hnull ih =>
    rw [List.cons_append, firstOf]
    · simp only [hnull, if_true, FirstSet.including, Std.ExtTreeSet.mem_union_iff, ih, or_assoc]
    all_goals assumption
  | case6 s rest h1 h2 h3 hnull =>
    rw [List.cons_append, firstOf]
    · simp [hnull]
    all_goals assumption

theorem nullable_firstOf_append : (t.firstOf (u ++ v)).nullable = true ↔
    (t.firstOf u).nullable = true ∧ (t.firstOf v).nullable = true := by
  fun_induction firstOf t u with
  | case1 => simp
  | case2 name rest => simp [firstOf]
  | case3 rest => simp [firstOf]
  | case4 rest ih => simpa [firstOf] using ih
  | case5 s rest h1 h2 h3 hnull ih =>
    rw [List.cons_append, firstOf]
    · simpa [hnull, FirstSet.including] using ih
    all_goals assumption
  | case6 s rest h1 h2 h3 hnull =>
    rw [List.cons_append, firstOf]
    · simp [hnull]
    all_goals assumption

theorem firstOf_append_within (hu : (t.firstOf u).Within (t.firstOf u'))
    (hv : (t.firstOf v).Within (t.firstOf v')) :
    (t.firstOf (u ++ v)).Within (t.firstOf (u' ++ v')) := by
  refine ⟨?_, ?_⟩
  · intro x hx
    rw [mem_firstOf_append_iff] at hx ⊢
    rcases hx with hx | ⟨hnull, hx⟩
    · exact Or.inl (hu.1 x hx)
    · exact Or.inr ⟨hu.2 hnull, hv.1 x hx⟩
  · intro hnull
    rw [nullable_firstOf_append] at hnull ⊢
    exact ⟨hu.2 hnull.1, hv.2 hnull.2⟩

/-! ## Closed tables -/

/-- Whether a left side can start with everything that a right side of it can start with. -/
def IsClosed (ps : List Production) (t : FirstTable) : Prop :=
  ∀ p ∈ ps, ∀ s, p.lhs? = some s → (t.firstOf p.right).Within (t.firstOf [s])

/-- When a pass changes nothing, none of its productions does. -/
theorem extend_eq_of_pass_eq (hq : ∀ q ∈ qs, q ∈ ps) (h : pass qs t = t) :
    ∀ q ∈ qs, t.extend q = t := by
  induction qs with
  | nil => exact fun q hq => absurd hq List.not_mem_nil
  | cons p rest ih =>
    have hrest : ∀ q ∈ rest, q ∈ ps := fun q hq' => hq q (List.mem_cons_of_mem p hq')
    change pass rest (t.extend p) = t at h
    have hp : t.extend p = t := by
      rcases extend_eq_or_missing_lt (hq p List.mem_cons_self) t with hsame | hless
      · exact hsame
      · -- What is missing after the first production never comes back.
        have hpass := pass_eq_or_missing_lt_of_subset hrest (t.extend p)
        rw [h] at hpass
        rcases hpass with heq | hlt
        · exact heq.symm
        · omega
    rw [hp] at h
    intro q hq'
    rcases List.mem_cons.1 hq' with rfl | hq'
    · exact hp
    · exact ih hrest h q hq'

theorem firstOf_within_of_extend_eq (h : t.extend p = t) (hs : p.lhs? = some s) :
    (t.firstOf p.right).Within (t.firstOf [s]) := by
  rw [firstOf_singleton (Production.isNonterminal_of_lhs? hs)]
  refine FirstSet.within_iff.2 fun o ho => ?_
  have htells : ((t.extend p).entry s).has o = true := has_entry_extend_iff.2 (Or.inr ⟨hs, ho⟩)
  rwa [h] at htells

theorem isClosed_ofProductions (ps : List Production) : IsClosed ps (ofProductions ps) := by
  intro p hp s hs
  have hextend := extend_eq_of_pass_eq (fun _ h => h) (pass_ofProductions ps) p hp
  exact firstOf_within_of_extend_eq hextend hs

theorem firstOf_within_of_yields (ht : IsClosed ps t) (h : Yields ps u v) :
    (t.firstOf v).Within (t.firstOf u) := by
  obtain ⟨p, hp, s, hs, before, after, rfl, rfl⟩ := h
  have hmiddle : (t.firstOf (before ++ p.right)).Within (t.firstOf (before ++ [s])) :=
    firstOf_append_within (.refl _) (ht p hp s hs)
  have hall := firstOf_append_within hmiddle (.refl (t.firstOf after))
  simpa using hall

theorem firstOf_within_of_derives (ht : IsClosed ps t) (h : Derives ps u v) :
    (t.firstOf v).Within (t.firstOf u) := by
  induction h with
  | refl => exact .refl _
  | tail _ h ih => exact (firstOf_within_of_yields ht h).trans ih

end FirstTable

end ShiftReduce
