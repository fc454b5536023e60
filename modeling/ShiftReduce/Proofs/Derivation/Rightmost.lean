import ShiftReduce.Derivation

set_option autoImplicit false

/-! # Rightmost derivations

Rightmost derivations can be put between a word on their left and terminals on their right, and one
after the other. Every word of terminals that can be derived at all has a rightmost derivation: read
what each symbol of a word spells, symbol by symbol, and rewrite the last symbol first.

**`exists_derivesRightmost`**: a derivation of a word of terminals can be made a rightmost one. -/

namespace ShiftReduce

variable {ps : List Production} {id : ProductionId} {ids ids' : List ProductionId}
  {u v w u' w' : Word} {s : Symbol}

/-! ## Words of terminals -/

namespace Word

instance (w : Word) : Decidable w.IsTerminal :=
  inferInstanceAs (Decidable (∀ s ∈ w, s.isTerminal = true))

theorem IsTerminal.nil : Word.IsTerminal [] :=
  fun _ h => absurd h List.not_mem_nil

theorem isTerminal_cons_iff : Word.IsTerminal (s :: w) ↔ s.isTerminal = true ∧ w.IsTerminal := by
  simp [IsTerminal]

theorem isTerminal_append_iff : Word.IsTerminal (u ++ v) ↔ u.IsTerminal ∧ v.IsTerminal := by
  simp only [IsTerminal, List.mem_append]
  exact ⟨fun h => ⟨fun s hs => h s (Or.inl hs), fun s hs => h s (Or.inr hs)⟩,
    fun ⟨hu, hv⟩ s hs => hs.elim (hu s) (hv s)⟩

/-- Where a symbol stands in a word of two parts. -/
theorem split_of_append_eq {before after : Word} (h : u ++ v = before ++ s :: after) :
    (∃ rest, u = before ++ s :: rest ∧ after = rest ++ v) ∨
      ∃ rest, before = u ++ rest ∧ v = rest ++ s :: after := by
  rcases List.append_eq_append_iff.1 h with ⟨rest, hbefore, hv⟩ | ⟨rest, hu, hrest⟩
  · exact Or.inr ⟨rest, hbefore, hv⟩
  · cases rest with
    | nil =>
      refine Or.inr ⟨[], ?_, ?_⟩
      · rw [hu, List.append_nil, List.append_nil]
      · simpa using hrest.symm
    | cons t rest =>
      obtain ⟨rfl, hafter⟩ := List.cons.inj hrest
      exact Or.inl ⟨rest, hu, hafter⟩

/-- Where a symbol stands in a word whose middle part `v` has just been put in. -/
theorem split_of_replaced {before after : Word} (h : u ++ v ++ w = before ++ s :: after) :
    (∃ rest, u = before ++ s :: rest ∧ after = rest ++ v ++ w) ∨
      (∃ x y, v = x ++ s :: y ∧ before = u ++ x ∧ after = y ++ w) ∨
      ∃ rest, before = u ++ v ++ rest ∧ w = rest ++ s :: after := by
  rcases split_of_append_eq h with ⟨y, huv, rfl⟩ | hw
  · rcases split_of_append_eq huv with ⟨rest, hu, rfl⟩ | ⟨x, hbefore, hv⟩
    · exact Or.inl ⟨rest, hu, rfl⟩
    · exact Or.inr (Or.inl ⟨x, y, hv, hbefore, rfl⟩)
  · exact Or.inr (Or.inr hw)

end Word

theorem Symbol.isNonterminal_of_isTerminal (h : s.isTerminal = true) :
    s.isNonterminal = false := by
  cases s <;> simp_all [isTerminal, isNonterminal]

/-! ## Composition -/

theorem YieldsRightmost.context (h : YieldsRightmost ps id v w) (before : Word) {after : Word}
    (hafter : after.IsTerminal) :
    YieldsRightmost ps id (before ++ v ++ after) (before ++ w ++ after) := by
  obtain ⟨p, hp, s, hs, x, z, hz, rfl, rfl⟩ := h
  exact ⟨p, hp, s, hs, before ++ x, z ++ after, Word.isTerminal_append_iff.2 ⟨hz, hafter⟩,
    by simp, by simp⟩

theorem DerivesRightmost.context (h : DerivesRightmost ps ids v w) (before : Word) {after : Word}
    (hafter : after.IsTerminal) :
    DerivesRightmost ps ids (before ++ v ++ after) (before ++ w ++ after) := by
  induction h with
  | refl w => exact .refl _
  | head h _ ih => exact .head (h.context before hafter) ih

theorem DerivesRightmost.trans (h : DerivesRightmost ps ids u v)
    (h' : DerivesRightmost ps ids' v w) : DerivesRightmost ps (ids ++ ids') u w := by
  induction h with
  | refl w => exact h'
  | head h _ ih => exact .head h (ih h')

theorem DerivesRightmost.single (h : YieldsRightmost ps id u v) :
    DerivesRightmost ps [id] u v :=
  .head h (.refl v)

/-- Further productions behind the given ones do not matter. -/
theorem DerivesRightmost.append_productions (h : DerivesRightmost ps ids u v)
    (qs : List Production) : DerivesRightmost (ps ++ qs) ids u v := by
  induction h with
  | refl w => exact .refl w
  | head h _ ih =>
    obtain ⟨p, hp, h⟩ := h
    have hlt := (List.getElem?_eq_some_iff.1 hp).1
    exact .head ⟨p, by rwa [List.getElem?_append_left hlt], h⟩ ih

theorem Derives.append_productions (h : Derives ps u v) (qs : List Production) :
    Derives (ps ++ qs) u v := by
  induction h with
  | refl => exact .refl
  | tail _ h ih =>
    obtain ⟨p, hp, h⟩ := h
    exact ih.tail ⟨p, List.mem_append_left qs hp, h⟩

/-! ## What words spell -/

/-- A word spells a word of terminals when its terminals stand for themselves and each of its
    nonterminals has a right side that spells its part. -/
inductive Spells (ps : List Production) : Word → Word → Prop where
  | nil : Spells ps [] []
  | terminal {s : Symbol} {u w : Word} :
    s.isTerminal = true → Spells ps u w → Spells ps (s :: u) (s :: w)
  | nonterminal {p : Production} {s : Symbol} {u v w : Word} :
    p ∈ ps → p.lhs? = some s → Spells ps p.right v → Spells ps u w → Spells ps (s :: u) (v ++ w)

namespace Spells

theorem isTerminal (h : Spells ps u w) : w.IsTerminal := by
  induction h with
  | nil => exact .nil
  | terminal hs _ ih => exact Word.isTerminal_cons_iff.2 ⟨hs, ih⟩
  | nonterminal _ _ _ _ ihv ihw => exact Word.isTerminal_append_iff.2 ⟨ihv, ihw⟩

theorem refl (h : w.IsTerminal) : Spells ps w w := by
  induction w with
  | nil => exact .nil
  | cons s w ih =>
    obtain ⟨hs, hw⟩ := Word.isTerminal_cons_iff.1 h
    exact .terminal hs (ih hw)

/-- Terminals spell nothing but themselves. -/
theorem eq_of_isTerminal (h : Spells ps u w) (hu : u.IsTerminal) : w = u := by
  induction h with
  | nil => rfl
  | terminal _ _ ih => rw [ih (Word.isTerminal_cons_iff.1 hu).2]
  | nonterminal _ hs _ _ _ _ =>
    have hterminal := Symbol.isNonterminal_of_isTerminal (Word.isTerminal_cons_iff.1 hu).1
    rw [Production.isNonterminal_of_lhs? hs] at hterminal
    simp at hterminal

theorem append (h : Spells ps u w) (h' : Spells ps u' w') : Spells ps (u ++ u') (w ++ w') := by
  induction h with
  | nil => exact h'
  | terminal hs _ ih => exact .terminal hs ih
  | nonterminal hp hs hv _ _ ih =>
    rw [List.append_assoc]
    exact .nonterminal hp hs hv ih

/-- What two words spell together splits into what the one and what the other spells. -/
theorem exists_of_append (h : Spells ps (u ++ v) w) :
    ∃ x y, w = x ++ y ∧ Spells ps u x ∧ Spells ps v y := by
  induction u generalizing w with
  | nil => exact ⟨[], w, rfl, .nil, h⟩
  | cons s u ih =>
    cases h with
    | terminal hs h =>
      obtain ⟨x, y, rfl, hx, hy⟩ := ih h
      exact ⟨s :: x, y, rfl, .terminal hs hx, hy⟩
    | nonterminal hp hs hv h =>
      obtain ⟨x, y, rfl, hx, hy⟩ := ih h
      exact ⟨_ ++ x, y, by rw [List.append_assoc], .nonterminal hp hs hv hx, hy⟩

/-- A word spells something when each of its symbols does. -/
theorem exists_of_forall_mem (h : ∀ s ∈ u, ∃ w, Spells ps [s] w) : ∃ w, Spells ps u w := by
  induction u with
  | nil => exact ⟨[], .nil⟩
  | cons s u ih =>
    obtain ⟨x, hx⟩ := h s List.mem_cons_self
    obtain ⟨y, hy⟩ := ih fun t ht => h t (List.mem_cons_of_mem s ht)
    exact ⟨x ++ y, hx.append hy⟩

/-- Replacing a nonterminal by a right side of it is undone. -/
theorem of_yields (h : Yields ps u v) (hv : Spells ps v w) : Spells ps u w := by
  obtain ⟨p, hp, s, hs, before, after, rfl, rfl⟩ := h
  obtain ⟨x, y, rfl, hx, hy⟩ := hv.exists_of_append
  obtain ⟨x, z, rfl, hx, hz⟩ := hx.exists_of_append
  rw [List.append_assoc]
  exact hx.append (.nonterminal hp hs hz hy)

theorem of_derives (h : Derives ps u w) (hw : w.IsTerminal) : Spells ps u w := by
  induction h using Relation.ReflTransGen.head_induction_on with
  | refl => exact .refl hw
  | head h _ ih => exact ih.of_yields h

/-- The last symbol is rewritten until it is spelled out, then the one before it. -/
theorem exists_derivesRightmost (h : Spells ps u w) : ∃ ids, DerivesRightmost ps ids u w := by
  induction h with
  | nil => exact ⟨[], .refl []⟩
  | @terminal s u w hs h ih =>
    obtain ⟨ids, ih⟩ := ih
    have hcons := ih.context [s] .nil
    simp only [List.append_nil, List.singleton_append] at hcons
    exact ⟨ids, hcons⟩
  | @nonterminal p s u v w hp hs hv hw ihv ihw =>
    obtain ⟨idsv, ihv⟩ := ihv
    obtain ⟨idsw, ihw⟩ := ihw
    obtain ⟨id, hid⟩ := List.getElem?_of_mem hp
    have hlast : DerivesRightmost ps idsw (s :: u) (s :: w) := by
      simpa using ihw.context [s] .nil
    have hstep : YieldsRightmost ps id (s :: w) (p.right ++ w) :=
      ⟨p, hid, s, hs, [], w, hw.isTerminal, rfl, rfl⟩
    have hfirst : DerivesRightmost ps idsv (p.right ++ w) (v ++ w) := by
      simpa using ihv.context [] hw.isTerminal
    exact ⟨idsw ++ id :: idsv, hlast.trans (.head hstep hfirst)⟩

theorem derives (h : Spells ps u w) : Derives ps u w := by
  obtain ⟨ids, hids⟩ := h.exists_derivesRightmost
  exact hids.derives

end Spells

theorem exists_derivesRightmost (h : Derives ps u w) (hw : w.IsTerminal) :
    ∃ ids, DerivesRightmost ps ids u w :=
  (Spells.of_derives h hw).exists_derivesRightmost

end ShiftReduce
