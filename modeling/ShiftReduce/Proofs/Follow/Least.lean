import Mathlib.Data.Set.Basic
import ShiftReduce.Proofs.Follow.Closed

set_option autoImplicit false

/-! # FOLLOW sets are the least that the productions ask for

What a table has to hold once it has been refined is defined by induction: what it held before, and
what the two inclusions of each occurrence hand on. Every family that meets the inclusions holds all
of this, be it a table or not. The direct pass and the propagation only ever add what one of the
inclusions asks for, so a refined table holds nothing else. The edges from a symbol to itself, which
the propagation leaves out, ask for nothing.

**`FollowTable.mem_refine_iff`**: a refined table holds what is required and no more.
**`FollowTable.mem_sets_refine_iff`**: its keys are the old ones and the nonterminals of right
sides. -/

namespace ShiftReduce

variable {ps : List Production} {first : FirstTable} {t : FollowTable} {s x : Symbol}

/-- Whether a family of sets meets the two inclusions for every occurrence in a right side. -/
structure MeetsInclusions (first : FirstTable) (ps : List Production)
    (F : Symbol → Set Symbol) : Prop where
  direct : ∀ p ∈ ps, p.lhs?.isSome = true → ∀ before b after, p.right = before ++ b :: after →
    b.isNonterminal = true → ∀ x ∈ (first.firstOf after).terminals, x ∈ F b
  tail : ∀ p ∈ ps, ∀ a, p.lhs? = some a → ∀ before b after, p.right = before ++ b :: after →
    b.isNonterminal = true → (first.firstOf after).nullable = true → F a ⊆ F b

namespace FollowTable

/-- The sets of the table, which are empty where it has no key. -/
def family (t : FollowTable) : Symbol → Set Symbol :=
  fun s => {x | x ∈ t.sets.entry s}

theorem IsClosed.meetsInclusions (ht : t.IsClosed first ps) : MeetsInclusions first ps t.family :=
  ⟨ht.direct, ht.tail⟩

/-- What must follow a symbol, given what a table holds already: the least relation that has this
    and meets the two inclusions for every occurrence in a right side. -/
inductive Required (first : FirstTable) (ps : List Production) (t : FollowTable) :
    Symbol → Symbol → Prop where
  | held {s x : Symbol} : x ∈ t.sets.entry s → Required first ps t s x
  | direct {p : Production} {before after : Word} {b x : Symbol} :
    p ∈ ps → p.lhs?.isSome = true → p.right = before ++ b :: after → b.isNonterminal = true →
    x ∈ (first.firstOf after).terminals → Required first ps t b x
  | tail {p : Production} {before after : Word} {a b x : Symbol} :
    p ∈ ps → p.lhs? = some a → p.right = before ++ b :: after → b.isNonterminal = true →
    (first.firstOf after).nullable = true → Required first ps t a x → Required first ps t b x

/-! ## Members -/

/-- A family that meets the inclusions has all that is required of a table within it. -/
theorem mem_of_required {F : Symbol → Set Symbol} (hF : MeetsInclusions first ps F)
    (hwithin : ∀ s, t.family s ⊆ F s) (h : t.Required first ps s x) : x ∈ F s := by
  induction h with
  | held h => exact hwithin _ h
  | direct hp hlhs hright hb hx => exact hF.direct _ hp hlhs _ _ _ hright hb _ hx
  | tail hp ha hright hb hnull _ ih => exact hF.tail _ hp _ ha _ _ _ hright hb hnull ih

theorem required_of_mem_refine (h : x ∈ (t.refine ps first).1.sets.entry s) :
    t.Required first ps s x := by
  refine Propagation.forall_mem_run (R := t.Required first ps) ?_ ?_ s x h
  · intro a b hab x hx
    obtain ⟨p, hp, ha, before, after, hright, hb, -, hnull⟩ := mem_tailEdges_iff.1 hab
    exact .tail hp ha hright hb hnull hx
  · intro b x hx
    rcases (Growth.mem_entry_foldl_addProduction _).1 hx with hheld | ⟨p, hp, hlhs, after, ho, hx⟩
    · exact .held hheld
    · obtain ⟨hb, before, hright⟩ := Word.mem_occurrences_iff.1 ho
      exact .direct hp hlhs hright hb hx

theorem mem_refine_iff : x ∈ (t.refine ps first).1.sets.entry s ↔ t.Required first ps s x :=
  ⟨required_of_mem_refine,
    mem_of_required (isClosed_refine t ps first).meetsInclusions (within_refine t ps first)⟩

end FollowTable

/-! ## Keys -/

theorem Word.exists_mem_occurrences_iff {w : Word} :
    (∃ after, (s, after) ∈ Word.occurrences w) ↔ s.isNonterminal = true ∧ s ∈ w := by
  refine ⟨?_, ?_⟩
  · rintro ⟨after, ho⟩
    obtain ⟨hs, before, hw⟩ := mem_occurrences_iff.1 ho
    exact ⟨hs, List.mem_iff_append.2 ⟨before, after, hw⟩⟩
  · rintro ⟨hs, hmem⟩
    obtain ⟨before, after, hw⟩ := List.mem_iff_append.1 hmem
    exact ⟨after, mem_occurrences_iff.2 ⟨hs, before, hw⟩⟩

namespace Growth

theorem mem_sets_foldl_add (found : List (Symbol × Word)) (g : Growth) :
    s ∈ (found.foldl (fun g (b, rest) => g.add b (first.firstOf rest).terminals) g).sets ↔
      s ∈ g.sets ∨ ∃ rest, (s, rest) ∈ found := by
  induction found generalizing g with
  | nil => simp
  | cons o found ih =>
    obtain ⟨b, rest⟩ := o
    rw [List.foldl_cons, ih]
    simp only [add, Family.mem_add, List.mem_cons, Prod.mk.injEq, exists_or, exists_and_left,
      exists_eq, and_true]
    rw [eq_comm, or_assoc, or_left_comm]

theorem mem_sets_addProduction {g : Growth} {p : Production} :
    s ∈ (addProduction first g p).sets ↔ s ∈ g.sets ∨
      p.lhs?.isSome = true ∧ s.isNonterminal = true ∧ s ∈ p.right := by
  unfold addProduction
  split
  · next h => rw [mem_sets_foldl_add, Word.exists_mem_occurrences_iff]; simp [h]
  · next h => simp [h]

theorem mem_sets_foldl_addProduction (g : Growth) :
    s ∈ (ps.foldl (addProduction first) g).sets ↔ s ∈ g.sets ∨
      ∃ p ∈ ps, p.lhs?.isSome = true ∧ s.isNonterminal = true ∧ s ∈ p.right := by
  induction ps generalizing g with
  | nil => simp
  | cons p ps ih =>
    rw [List.foldl_cons, ih, mem_sets_addProduction, or_assoc]
    simp only [List.mem_cons, exists_eq_or_imp]

end Growth

namespace FollowTable

theorem mem_sets_refine_iff : s ∈ (t.refine ps first).1.sets ↔ s ∈ t.sets ∨
    ∃ p ∈ ps, p.lhs?.isSome = true ∧ s.isNonterminal = true ∧ s ∈ p.right := by
  let direct := ps.foldl (Growth.addProduction first) ⟨t.sets, false⟩
  let start : Propagation := .start direct.sets direct.sets.keys direct.grew
  -- The edges lead to nonterminals of right sides, which the direct pass has made keys.
  have hedges : ∀ a b, (a, b) ∈ tailEdges first ps → b ∈ start.sets := by
    intro a b hab
    obtain ⟨p, hp, ha, before, after, hright, hb, -, -⟩ := mem_tailEdges_iff.1 hab
    refine (Growth.mem_sets_foldl_addProduction _).2 (Or.inr ⟨p, hp, by simp [ha], hb, ?_⟩)
    rw [hright]
    simp
  have hrun : s ∈ ((Propagation.loop (tailEdges first ps)).run start).sets ↔ s ∈ direct.sets :=
    Propagation.mem_sets_run_iff hedges
  exact hrun.trans (Growth.mem_sets_foldl_addProduction _)

/-! ## Initial tables -/

theorem mem_entry_initial_iff {nonterminals : SymbolSet} {a : Symbol} :
    x ∈ (initial ps nonterminals a).sets.entry s ↔ s = a ∧ x = .eof := by
  rw [initial, Family.mem_entry_add, Family.entry_ofKeys]
  simp [eq_comm (a := a), eq_comm (a := Symbol.eof)]

theorem mem_sets_initial_iff {nonterminals : SymbolSet} {a : Symbol} :
    s ∈ (initial ps nonterminals a).sets ↔ s = a ∨
      s.isNonterminal = true ∧ (s ∈ nonterminals ∨ ∃ p ∈ ps, s ∈ p.symbols) := by
  rw [initial, Family.mem_add, Family.mem_ofKeys]
  simp only [List.mem_filter, List.mem_append, Std.ExtTreeSet.mem_toList, List.mem_flatMap]
  rw [eq_comm, and_comm]

end FollowTable

end ShiftReduce
