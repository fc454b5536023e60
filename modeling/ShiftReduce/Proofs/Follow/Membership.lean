import ShiftReduce.Proofs.Follow.Exact

set_option autoImplicit false

/-! # FIRST and FOLLOW do not depend on the order of productions

The passes and the worklist take the productions in their order, but what they compute is told by
derivations, and a derivation may use the productions in any order and each of them repeatedly. So
the tables depend on which productions there are and on nothing else.

**`FirstTable.ofProductions_congr`**: lists with the same productions have the same FIRST table.
**`Grammar.followTable_congr`**: grammars with the same productions, nonterminals and start symbol
have the same FOLLOW table. -/

namespace ShiftReduce

variable {ps qs : List Production} {v w : Word} {s x : Symbol}

/-! ## Derivations -/

theorem Derives.mono (h : ∀ p ∈ ps, p ∈ qs) (hder : Derives ps v w) : Derives qs v w := by
  induction hder with
  | refl => exact .refl
  | tail _ hstep ih =>
    obtain ⟨p, hp, hrest⟩ := hstep
    exact ih.tail ⟨p, h p hp, hrest⟩

theorem derives_congr (h : ∀ p, p ∈ ps ↔ p ∈ qs) : Derives ps v w ↔ Derives qs v w :=
  ⟨Derives.mono fun p => (h p).1, Derives.mono fun p => (h p).2⟩

/-! ## FIRST -/

namespace FirstTable

theorem mem_entry_ofProductions_iff (hs : s.isNonterminal = true) :
    x ∈ (ofProductions ps).sets.entry s ↔ CanStart ps [s] x := by
  refine ⟨(isSound_ofProductions ps).canStart s x, ?_⟩
  intro h
  have hmem := mem_firstOf_of_canStart (isClosed_ofProductions ps) h
  rwa [firstOf_singleton hs] at hmem

/-- Only left sides are ever found to vanish. -/
theorem mem_leftSides_of_mem_nullable (h : s ∈ (ofProductions ps).nullable) :
    s ∈ leftSides ps := by
  have hextend {t : FirstTable} {p : Production} (hp : p ∈ ps)
      (ht : ∀ s ∈ t.nullable, s ∈ leftSides ps) : ∀ s ∈ (t.extend p).nullable, s ∈ leftSides ps := by
    intro s hs
    unfold extend at hs
    split at hs
    · next a ha =>
      simp only [absorb] at hs
      split at hs
      · rw [Std.ExtTreeSet.mem_insert, Std.LawfulEqCmp.compare_eq_iff_eq] at hs
        rcases hs with rfl | hs
        · exact List.mem_filterMap.2 ⟨p, hp, ha⟩
        · exact ht s hs
      · exact ht s hs
    · exact ht s hs
  have hpass {rs : List Production} (hrs : ∀ p ∈ rs, p ∈ ps) {t : FirstTable}
      (ht : ∀ s ∈ t.nullable, s ∈ leftSides ps) : ∀ s ∈ (pass rs t).nullable, s ∈ leftSides ps := by
    induction rs generalizing t with
    | nil => exact ht
    | cons p rest ih =>
      exact ih (fun q hq => hrs q (List.mem_cons_of_mem p hq))
        (hextend (hrs p List.mem_cons_self) ht)
  refine ofProductions_induction (P := fun t => ∀ s ∈ t.nullable, s ∈ leftSides ps) ?_ ?_ s h
  · exact fun t ht => hpass (fun _ hp => hp) ht
  · intro s hs
    simp [initial] at hs

theorem mem_nullable_ofProductions_iff :
    s ∈ (ofProductions ps).nullable ↔ s ∈ leftSides ps ∧ CanVanish ps [s] := by
  refine ⟨fun h => ⟨mem_leftSides_of_mem_nullable h, (isSound_ofProductions ps).canVanish s h⟩, ?_⟩
  rintro ⟨hs, h⟩
  have hnull := nullable_firstOf_of_canVanish (isClosed_ofProductions ps) h
  rw [firstOf_singleton (isNonterminal_of_mem_leftSides hs)] at hnull
  exact Std.ExtTreeSet.contains_iff_mem.1 hnull

/-- **Lists with the same productions have the same FIRST table.** -/
theorem ofProductions_congr (h : ∀ p, p ∈ ps ↔ p ∈ qs) : ofProductions ps = ofProductions qs := by
  have hleft : ∀ s, s ∈ leftSides ps ↔ s ∈ leftSides qs := by
    intro s
    simp only [leftSides, List.mem_filterMap, h]
  have hsets : (ofProductions ps).sets = (ofProductions qs).sets := by
    refine Family.ext_mem ?_ ?_
    · intro k
      rw [mem_sets_ofProductions_iff, mem_sets_ofProductions_iff, hleft]
    · intro k hk y
      have hk := isNonterminal_of_mem_leftSides (mem_sets_ofProductions_iff.1 hk)
      rw [mem_entry_ofProductions_iff hk, mem_entry_ofProductions_iff hk]
      simp only [CanStart, derives_congr h]
  have hnullable : (ofProductions ps).nullable = (ofProductions qs).nullable := by
    refine Std.ExtTreeSet.ext_mem fun s => ?_
    rw [mem_nullable_ofProductions_iff, mem_nullable_ofProductions_iff, hleft]
    simp only [CanVanish, derives_congr h]
  calc ofProductions ps = ⟨(ofProductions ps).sets, (ofProductions ps).nullable⟩ := rfl
    _ = ⟨(ofProductions qs).sets, (ofProductions qs).nullable⟩ := by rw [hsets, hnullable]
    _ = ofProductions qs := rfl

end FirstTable

/-! ## FOLLOW -/

namespace Grammar

variable {g g' : Grammar}

/-- **Grammars with the same productions, nonterminals and start symbol have the same FOLLOW
    table.** -/
theorem followTable_congr (h : ∀ p, p ∈ g.productions ↔ p ∈ g'.productions)
    (hnonterminals : g.nonterminals = g'.nonterminals) (hstart : g.start = g'.start) :
    g.followTable = g'.followTable := by
  have hfollow : ∀ k y, g.CanFollow k y ↔ g'.CanFollow k y := by
    intro k y
    simp only [CanFollow, derives_congr h, hnonterminals, hstart]
  have hsets : g.followTable.sets = g'.followTable.sets := by
    refine Family.ext_mem ?_ ?_
    · intro k
      rw [mem_sets_followTable_iff, mem_sets_followTable_iff, hnonterminals]
    · intro k hk y
      have hk := isNonterminal_of_mem_nonterminals (mem_sets_followTable_iff.1 hk)
      rw [mem_followTable_iff hk, mem_followTable_iff hk, hfollow]
  exact congrArg FollowTable.mk hsets

end Grammar

end ShiftReduce
