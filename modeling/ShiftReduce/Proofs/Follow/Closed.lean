import ShiftReduce.Proofs.Derivation.Rightmost
import ShiftReduce.Proofs.First.Closed
import ShiftReduce.Proofs.Follow.Propagation

set_option autoImplicit false

/-! # FOLLOW sets hold what follows in derivations

A table is closed when it meets both inclusions that an occurrence `A -> α B β` asks for. In a word
derived from a nonterminal, whatever the rest of the word behind an occurrence can start with then
follows the symbol that occurs, and where the rest can vanish, what follows the nonterminal follows
it too.

**`FollowTable.isClosed_ofProductions`**: one direct pass and the propagation make a closed table.
**`FollowTable.IsClosed.mem_of_derives`**: what a closed table says of words derived from a
nonterminal. -/

namespace ShiftReduce

variable {ps : List Production} {first : FirstTable} {s x a b : Symbol} {w before after : Word}

/-! ## Occurrences -/

/-- A symbol of a word is its first one, or it stands in the rest. -/
theorem Word.exists_cons_eq_append_iff {rest : Word} :
    (∃ before, s :: rest = before ++ b :: after) ↔
      (b, after) = (s, rest) ∨ ∃ before, rest = before ++ b :: after := by
  refine ⟨?_, ?_⟩
  · intro h
    obtain ⟨before, h⟩ := h
    cases before with
    | nil =>
      obtain ⟨rfl, rfl⟩ := List.cons.inj h
      exact Or.inl rfl
    | cons t before => exact Or.inr ⟨before, (List.cons.inj h).2⟩
  · intro h
    rcases h with h | ⟨before, rfl⟩
    · obtain ⟨rfl, rfl⟩ := Prod.mk.inj h
      exact ⟨[], rfl⟩
    · exact ⟨s :: before, rfl⟩

theorem Word.mem_occurrences_iff : (b, after) ∈ Word.occurrences w ↔
    b.isNonterminal = true ∧ ∃ before, w = before ++ b :: after := by
  induction w with
  | nil => simp [occurrences]
  | cons s rest ih =>
    rw [occurrences, Word.exists_cons_eq_append_iff]
    split
    · next hs =>
      rw [List.mem_cons, ih]
      refine ⟨?_, ?_⟩
      · intro h
        rcases h with h | ⟨hb, h⟩
        · exact ⟨(Prod.mk.inj h).1 ▸ hs, Or.inl h⟩
        · exact ⟨hb, Or.inr h⟩
      · intro h
        rcases h with ⟨hb, h | h⟩
        · exact Or.inl h
        · exact Or.inr ⟨hb, h⟩
    · next hs =>
      rw [ih]
      refine ⟨?_, ?_⟩
      · intro h
        obtain ⟨hb, h⟩ := h
        exact ⟨hb, Or.inr h⟩
      · intro h
        rcases h with ⟨hb, h | h⟩
        · exact absurd ((Prod.mk.inj h).1 ▸ hb) hs
        · exact ⟨hb, h⟩

theorem mem_tailEdges_iff : (a, b) ∈ tailEdges first ps ↔
    ∃ p ∈ ps, p.lhs? = some a ∧ ∃ before after, p.right = before ++ b :: after ∧
      b.isNonterminal = true ∧ b ≠ a ∧ (first.firstOf after).nullable = true := by
  rw [tailEdges, List.mem_eraseDups, List.mem_flatMap]
  refine ⟨?_, ?_⟩
  · intro h
    obtain ⟨p, hp, h⟩ := h
    split at h
    · next c hc =>
      obtain ⟨⟨d, after⟩, hoccurs, h⟩ := List.mem_filterMap.1 h
      obtain ⟨hb, before, hright⟩ := Word.mem_occurrences_iff.1 hoccurs
      obtain ⟨⟨hne, hnull⟩, heq⟩ := Option.ite_none_right_eq_some.1 h
      obtain ⟨rfl, rfl⟩ := Prod.mk.inj (Option.some.inj heq)
      exact ⟨p, hp, hc, before, after, hright, hb, hne, hnull⟩
    · simp at h
  · intro h
    obtain ⟨p, hp, ha, before, after, hright, hb, hne, hnull⟩ := h
    refine ⟨p, hp, ?_⟩
    rw [ha]
    refine List.mem_filterMap.2 ⟨(b, after), Word.mem_occurrences_iff.2 ⟨hb, before, hright⟩, ?_⟩
    simp [hne, hnull]

/-! ## The direct pass -/

namespace Growth

theorem mem_entry_foldl_add (found : List (Symbol × Word)) (g : Growth) :
    x ∈ (found.foldl (fun g (b, rest) => g.add b (first.firstOf rest).terminals) g).sets.entry s ↔
      x ∈ g.sets.entry s ∨ ∃ rest, (s, rest) ∈ found ∧ x ∈ (first.firstOf rest).terminals := by
  induction found generalizing g with
  | nil => simp
  | cons o found ih =>
    obtain ⟨b, rest⟩ := o
    rw [List.foldl_cons, ih]
    simp only [add, Family.mem_entry_add, List.mem_cons, Prod.mk.injEq]
    refine ⟨?_, ?_⟩
    · intro h
      rcases h with (h | ⟨rfl, h⟩) | ⟨rest', hmem, h⟩
      · exact Or.inl h
      · exact Or.inr ⟨rest, Or.inl ⟨rfl, rfl⟩, h⟩
      · exact Or.inr ⟨rest', Or.inr hmem, h⟩
    · intro h
      rcases h with h | ⟨rest', ⟨rfl, rfl⟩ | hmem, h⟩
      · exact Or.inl (Or.inl h)
      · exact Or.inl (Or.inr ⟨rfl, h⟩)
      · exact Or.inr ⟨rest', hmem, h⟩

theorem mem_entry_addProduction {g : Growth} {p : Production} :
    x ∈ (addProduction first g p).sets.entry s ↔ x ∈ g.sets.entry s ∨
      p.lhs?.isSome = true ∧ ∃ rest, (s, rest) ∈ Word.occurrences p.right ∧
        x ∈ (first.firstOf rest).terminals := by
  unfold addProduction
  split
  · next h => rw [mem_entry_foldl_add]; simp [h]
  · next h => simp [h]

theorem mem_entry_foldl_addProduction (g : Growth) :
    x ∈ (ps.foldl (addProduction first) g).sets.entry s ↔ x ∈ g.sets.entry s ∨
      ∃ p ∈ ps, p.lhs?.isSome = true ∧ ∃ rest, (s, rest) ∈ Word.occurrences p.right ∧
        x ∈ (first.firstOf rest).terminals := by
  induction ps generalizing g with
  | nil => simp
  | cons p ps ih =>
    rw [List.foldl_cons, ih, mem_entry_addProduction, or_assoc]
    simp only [List.mem_cons, exists_eq_or_imp]

end Growth

/-! ## Closed tables -/

namespace FollowTable

/-- Whether a table meets the two inclusions for every occurrence in a right side. -/
structure IsClosed (first : FirstTable) (ps : List Production) (t : FollowTable) : Prop where
  direct : ∀ p ∈ ps, p.lhs?.isSome = true → ∀ before b after, p.right = before ++ b :: after →
    b.isNonterminal = true → ∀ x ∈ (first.firstOf after).terminals, x ∈ t.sets.entry b
  tail : ∀ p ∈ ps, ∀ a, p.lhs? = some a → ∀ before b after, p.right = before ++ b :: after →
    b.isNonterminal = true → (first.firstOf after).nullable = true →
      ∀ x ∈ t.sets.entry a, x ∈ t.sets.entry b

theorem isClosed_refine (t : FollowTable) (ps : List Production) (first : FirstTable) :
    (t.refine ps first).1.IsClosed first ps := by
  let direct := ps.foldl (Growth.addProduction first) ⟨t.sets, false⟩
  let start : Propagation := .start direct.sets direct.sets.keys direct.grew
  have hsettled := Propagation.settled_run (s := start)
    (Propagation.sound_start (fun _ => Std.ExtTreeMap.mem_keys.2) (tailEdges first ps) direct.grew)
  refine ⟨?_, ?_⟩
  · intro p hp hlhs before b after hright hb x hx
    refine Propagation.within_run (tailEdges first ps) start b x ?_
    refine (Growth.mem_entry_foldl_addProduction _).2 (Or.inr ⟨p, hp, hlhs, after, ?_, hx⟩)
    exact Word.mem_occurrences_iff.2 ⟨hb, before, hright⟩
  · intro p hp a ha before b after hright hb hnull x hx
    by_cases hne : b = a
    · rw [hne]
      exact hx
    · have hedge : (a, b) ∈ tailEdges first ps :=
        mem_tailEdges_iff.2 ⟨p, hp, ha, before, after, hright, hb, hne, hnull⟩
      exact hsettled a b hedge x hx

/-- Refining a table takes nothing away from it. -/
theorem within_refine (t : FollowTable) (ps : List Production) (first : FirstTable) :
    t.sets.Within (t.refine ps first).1.sets := by
  intro k x hx
  refine Propagation.within_run (tailEdges first ps) _ k x ?_
  exact (Growth.mem_entry_foldl_addProduction _).2 (Or.inl hx)

theorem isClosed_ofProductions (ps : List Production) (nonterminals : SymbolSet) (s : Symbol)
    (first : FirstTable) : (ofProductions ps nonterminals s first).IsClosed first ps :=
  isClosed_refine (initial ps nonterminals s) ps first

theorem eof_mem_ofProductions (ps : List Production) (nonterminals : SymbolSet) (s : Symbol)
    (first : FirstTable) : .eof ∈ (ofProductions ps nonterminals s first).sets.entry s := by
  refine within_refine (initial ps nonterminals s) ps first s .eof ?_
  refine Family.mem_entry_add.2 (Or.inr ⟨rfl, ?_⟩)
  simp

/-! ## Derived words -/

theorem IsClosed.mem_of_derives {t : FollowTable} (ht : t.IsClosed first ps)
    (hfirst : first.IsClosed ps) (h : Derives ps [a] w) (hw : w = before ++ s :: after)
    (hs : s.isNonterminal = true) :
    (∀ x ∈ (first.firstOf after).terminals, x ∈ t.sets.entry s) ∧
      ((first.firstOf after).nullable = true → ∀ x ∈ t.sets.entry a, x ∈ t.sets.entry s) := by
  induction h generalizing before s after with
  | refl =>
    obtain ⟨rfl, h⟩ | ⟨_, -, h⟩ := List.append_eq_cons_iff.1 hw.symm
    · obtain ⟨rfl, rfl⟩ := List.cons.inj h
      simp [FirstTable.firstOf]
    · simp at h
  | tail _ hstep ih =>
    obtain ⟨p, hp, c, hc, u, z, rfl, rfl⟩ := hstep
    rcases Word.split_of_replaced hw with ⟨rest, rfl, rfl⟩ | ⟨α, β, hright, rfl, rfl⟩ |
      ⟨rest, rfl, rfl⟩
    · -- The symbol stands before the right side, which can start with no more than its left side.
      have hsplit : before ++ s :: rest ++ c :: z = before ++ s :: (rest ++ c :: z) := by
        rw [List.append_assoc, List.cons_append]
      obtain ⟨hdirect, htail⟩ := ih hsplit hs
      have hwithin : (first.firstOf (rest ++ p.right ++ z)).Within
          (first.firstOf (rest ++ c :: z)) :=
        FirstTable.firstOf_within_of_yields hfirst ⟨p, hp, c, hc, rest, z, rfl, rfl⟩
      exact ⟨fun x hx => hdirect x (hwithin.1 x hx), fun hn => htail (hwithin.2 hn)⟩
    · -- The symbol stands in the right side, and what follows the left side may follow it.
      obtain ⟨hdirect, htail⟩ := ih rfl (Production.isNonterminal_of_lhs? hc)
      have hinner := ht.tail p hp c hc α s β hright hs
      refine ⟨?_, ?_⟩
      · intro x hx
        rcases FirstTable.mem_firstOf_append_iff.1 hx with hx | ⟨hn, hx⟩
        · exact ht.direct p hp (by simp [hc]) α s β hright hs x hx
        · exact hinner hn x (hdirect x hx)
      · intro hn x hx
        obtain ⟨hβ, hz⟩ := FirstTable.nullable_firstOf_append.1 hn
        exact hinner hβ x (htail hz x hx)
    · -- The symbol stands behind the right side, where nothing has changed.
      have hsplit : u ++ c :: (rest ++ s :: after) = (u ++ c :: rest) ++ s :: after := by
        rw [List.append_assoc, List.cons_append]
      exact ih hsplit hs

end FollowTable

end ShiftReduce
