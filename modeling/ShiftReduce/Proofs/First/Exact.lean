import ShiftReduce.Proofs.First.Closed

set_option autoImplicit false

/-! # FIRST sets are what derivations start with

A table is sound when each of its entries is borne out by a derivation. The passes begin with a
table that says nothing and keep it sound, and the one at which they stop is closed, so it says of
every word what can be derived from it. The productions may have any symbols in them: dots vanish,
the end of the input counts as a terminal, and a nonterminal without productions leads nowhere.

**`FirstTable.IsSound.extend`**: taking up a production keeps a table sound.
**`FirstTable.isExact_ofProductions`**: the table of the productions agrees with their
derivations. -/

namespace ShiftReduce

variable {ps : List Production} {t : FirstTable} {u v w : Word} {s x : Symbol}

/-! ## What words can derive -/

namespace Word

/-- Whether the word is made of dots only. -/
def IsDots (w : Word) : Prop :=
  ∀ s ∈ w, s = .dot

theorem IsDots.nil : IsDots [] :=
  fun _ h => absurd h List.not_mem_nil

theorem IsDots.cons (h : IsDots w) : IsDots (.dot :: w) := by
  intro s hs
  rcases List.mem_cons.1 hs with rfl | hs
  · rfl
  · exact h s hs

theorem IsDots.append (hu : IsDots u) (hv : IsDots v) : IsDots (u ++ v) := by
  intro s hs
  rcases List.mem_append.1 hs with hs | hs
  · exact hu s hs
  · exact hv s hs

end Word

/-- Whether the word derives one in which nothing but dots comes before `x`, which is a terminal or
    the end of the input. -/
def CanStart (ps : List Production) (w : Word) (x : Symbol) : Prop :=
  (x.isTerminal = true ∨ x = .eof) ∧
    ∃ before after, Word.IsDots before ∧ Derives ps w (before ++ x :: after)

/-- Whether the word derives one of dots only. -/
def CanVanish (ps : List Production) (w : Word) : Prop :=
  ∃ v, Word.IsDots v ∧ Derives ps w v

theorem CanStart.of_derives (h : Derives ps u v) (hv : CanStart ps v x) : CanStart ps u x := by
  obtain ⟨hx, before, after, hdots, hder⟩ := hv
  exact ⟨hx, before, after, hdots, h.trans hder⟩

theorem CanVanish.of_derives (h : Derives ps u v) (hv : CanVanish ps v) : CanVanish ps u := by
  obtain ⟨w, hdots, hder⟩ := hv
  exact ⟨w, hdots, h.trans hder⟩

theorem CanStart.append (h : CanStart ps u x) (v : Word) : CanStart ps (u ++ v) x := by
  obtain ⟨hx, before, after, hdots, hder⟩ := h
  refine ⟨hx, before, after ++ v, hdots, ?_⟩
  have hall : Derives ps (u ++ v) (before ++ x :: after ++ v) := Derives.append hder .refl
  rwa [List.append_assoc, List.cons_append] at hall

/-- What comes behind a word that can vanish can come first. -/
theorem CanVanish.canStart_append (hu : CanVanish ps u) (hv : CanStart ps v x) :
    CanStart ps (u ++ v) x := by
  obtain ⟨dots, hdots, hu⟩ := hu
  obtain ⟨hx, before, after, hbefore, hv⟩ := hv
  refine ⟨hx, dots ++ before, after, hdots.append hbefore, ?_⟩
  rw [List.append_assoc]
  exact Derives.append hu hv

theorem CanVanish.append (hu : CanVanish ps u) (hv : CanVanish ps v) : CanVanish ps (u ++ v) := by
  obtain ⟨dots, hdots, hu⟩ := hu
  obtain ⟨dots', hdots', hv⟩ := hv
  exact ⟨dots ++ dots', hdots.append hdots', Derives.append hu hv⟩

theorem canStart_cons (hx : x.isTerminal = true ∨ x = .eof) (rest : Word) :
    CanStart ps (x :: rest) x :=
  ⟨hx, [], rest, .nil, .refl⟩

theorem canVanish_nil (ps : List Production) : CanVanish ps [] :=
  ⟨[], .nil, .refl⟩

theorem canVanish_dot (ps : List Production) : CanVanish ps [.dot] :=
  ⟨[.dot], .cons .nil, .refl⟩

namespace FirstTable

/-! ## Sound tables -/

/-- Whether each entry of the table is borne out by a derivation. -/
structure IsSound (ps : List Production) (t : FirstTable) : Prop where
  canStart : ∀ s, ∀ x ∈ t.sets.entry s, CanStart ps [s] x
  canVanish : ∀ s ∈ t.nullable, CanVanish ps [s]

theorem IsSound.canStart_of_mem_firstOf (ht : t.IsSound ps)
    (h : x ∈ (t.firstOf w).terminals) : CanStart ps w x := by
  -- In the fifth case the nonterminal in front can vanish, in the sixth it cannot.
  fun_induction firstOf t w with
  | case1 => simp at h
  | case2 name rest =>
    obtain rfl : .terminal name = x := by simpa using h
    exact canStart_cons (Or.inl rfl) rest
  | case3 rest =>
    obtain rfl : .eof = x := by simpa using h
    exact canStart_cons (Or.inr rfl) rest
  | case4 rest ih => exact (canVanish_dot ps).canStart_append (ih h)
  | case5 s rest _ _ _ hnull ih =>
    rcases Std.ExtTreeSet.mem_union_iff.1 h with h | h
    · exact (ht.canStart s x h).append rest
    · have hvanish := ht.canVanish s (Std.ExtTreeSet.contains_iff_mem.1 hnull)
      exact hvanish.canStart_append (ih h)
  | case6 s rest => exact (ht.canStart s x h).append rest

theorem IsSound.canVanish_of_nullable (ht : t.IsSound ps)
    (h : (t.firstOf w).nullable = true) : CanVanish ps w := by
  fun_induction firstOf t w with
  | case1 => exact canVanish_nil ps
  | case2 name rest => simp at h
  | case3 rest => simp at h
  | case4 rest ih => exact (canVanish_dot ps).append (ih h)
  | case5 s rest _ _ _ hnull ih =>
    have hvanish := ht.canVanish s (Std.ExtTreeSet.contains_iff_mem.1 hnull)
    exact hvanish.append (ih h)
  | case6 s rest => simp at h

/-- What a right side can derive its left side can derive. -/
theorem IsSound.extend {p : Production} (ht : t.IsSound ps) (hp : p ∈ ps) :
    (t.extend p).IsSound ps := by
  refine ⟨?_, ?_⟩
  · intro s x hx
    rcases has_entry_extend_iff.1 (FirstSet.has_some_iff.2 hx) with hold | ⟨hs, hnew⟩
    · exact ht.canStart s x (FirstSet.has_some_iff.1 hold)
    · have hright := ht.canStart_of_mem_firstOf (FirstSet.has_some_iff.1 hnew)
      exact hright.of_derives (.of_lhs? hp hs)
  · intro s hs
    rcases has_entry_extend_iff.1 (mem_nullable_iff.1 hs) with hold | ⟨hs, hnew⟩
    · exact ht.canVanish s (mem_nullable_iff.2 hold)
    · exact (ht.canVanish_of_nullable hnew).of_derives (.of_lhs? hp hs)

/-- A table that says nothing is sound. -/
theorem isSound_initial (ps : List Production) : (initial ps).IsSound ps := by
  refine ⟨?_, ?_⟩
  · intro s x hx
    simp [initial, Family.entry_ofKeys] at hx
  · intro s hs
    simp [initial] at hs

theorem isSound_ofProductions (ps : List Production) : (ofProductions ps).IsSound ps := by
  refine ofProductions_induction (P := IsSound ps) ?_ (isSound_initial ps)
  intro t ht
  exact pass_induction (fun _ hp _ h => h.extend hp) ht

/-! ## Complete tables -/

theorem firstOf_isDots (h : Word.IsDots w) : t.firstOf w = ⟨∅, true⟩ := by
  induction w with
  | nil => rfl
  | cons s rest ih =>
    obtain rfl := h s List.mem_cons_self
    exact ih fun x hx => h x (List.mem_cons_of_mem _ hx)

theorem mem_firstOf_cons (hx : x.isTerminal = true ∨ x = .eof) (rest : Word) :
    x ∈ (t.firstOf (x :: rest)).terminals := by
  rcases hx with hx | rfl
  · rw [firstOf_terminal hx]
    simp
  · simp [firstOf]

/-- A closed table has everything that a word can be made to start with. -/
theorem mem_firstOf_of_canStart (ht : IsClosed ps t) (h : CanStart ps w x) :
    x ∈ (t.firstOf w).terminals := by
  obtain ⟨hx, before, after, hdots, hder⟩ := h
  refine (firstOf_within_of_derives ht hder).1 x ?_
  rw [mem_firstOf_append_iff, firstOf_isDots hdots]
  exact Or.inr ⟨rfl, mem_firstOf_cons hx after⟩

theorem nullable_firstOf_of_canVanish (ht : IsClosed ps t) (h : CanVanish ps w) :
    (t.firstOf w).nullable = true := by
  obtain ⟨dots, hdots, hder⟩ := h
  refine (firstOf_within_of_derives ht hder).2 ?_
  rw [firstOf_isDots hdots]

/-! ## Keys -/

theorem mem_sets_extend_iff {p : Production} :
    s ∈ (t.extend p).sets ↔ p.lhs? = some s ∨ s ∈ t.sets := by
  unfold extend
  split
  · next a ha => simp [absorb, Family.mem_add, ha]
  · next ha => simp [ha]

theorem mem_sets_pass_iff : s ∈ (pass ps t).sets ↔ s ∈ leftSides ps ∨ s ∈ t.sets := by
  induction ps generalizing t with
  | nil => simp [pass, leftSides]
  | cons p rest ih =>
    show s ∈ (pass rest (t.extend p)).sets ↔ _
    rw [ih, mem_sets_extend_iff]
    simp only [leftSides, List.mem_filterMap, List.mem_cons, exists_eq_or_imp]
    rw [or_left_comm, or_assoc]

/-- The table has an entry for each left side and for nothing else. -/
theorem mem_sets_ofProductions_iff : s ∈ (ofProductions ps).sets ↔ s ∈ leftSides ps := by
  refine ofProductions_induction (P := fun t => s ∈ t.sets ↔ s ∈ leftSides ps) ?_ ?_
  · intro t ht
    rw [mem_sets_pass_iff, ht, or_self]
  · exact Family.mem_ofKeys

theorem isNonterminal_of_mem_leftSides (h : s ∈ leftSides ps) : s.isNonterminal = true := by
  obtain ⟨p, -, hs⟩ := List.mem_filterMap.1 h
  exact Production.isNonterminal_of_lhs? hs

/-! ## Exactness -/

/-- **What the table of the productions says of a word is what can be derived from it**: the
    symbols that it can start with and whether it can vanish. The entries are those of the left
    sides, and what the table keeps for a nonterminal it says of the nonterminal as a word. -/
theorem isExact_ofProductions (ps : List Production) :
    (∀ w x, x ∈ ((ofProductions ps).firstOf w).terminals ↔ CanStart ps w x) ∧
    (∀ w, ((ofProductions ps).firstOf w).nullable = true ↔ CanVanish ps w) ∧
    (∀ s, (ofProductions ps).get? s =
      if s ∈ leftSides ps then some ((ofProductions ps).firstOf [s]).terminals else none) ∧
    (∀ s, s.isNonterminal = true →
      (ofProductions ps).isNullable s = ((ofProductions ps).firstOf [s]).nullable) := by
  have hsound := isSound_ofProductions ps
  have hclosed := isClosed_ofProductions ps
  refine ⟨?_, ?_, ?_, ?_⟩
  · intro w x
    exact ⟨hsound.canStart_of_mem_firstOf, mem_firstOf_of_canStart hclosed⟩
  · intro w
    exact ⟨hsound.canVanish_of_nullable, nullable_firstOf_of_canVanish hclosed⟩
  · intro s
    split
    · next hs =>
      rw [firstOf_singleton (isNonterminal_of_mem_leftSides hs)]
      exact Family.getElem?_eq_some_entry (mem_sets_ofProductions_iff.2 hs)
    · next hs =>
      exact Std.ExtTreeMap.getElem?_eq_none fun hmem => hs (mem_sets_ofProductions_iff.1 hmem)
  · intro s hs
    rw [firstOf_singleton hs]

/-- `A` and `B` vanish by way of each other and of a dot, and `C` has no rule. -/
def looping : List Production :=
  [.unrestricted [.nonterminal "S"] [.nonterminal "A", .dot, .eof],
    .unrestricted [.nonterminal "A"] [.nonterminal "B"],
    .unrestricted [.nonterminal "B"] [.nonterminal "A", .terminal "a", .nonterminal "C"],
    .unrestricted [.nonterminal "B"] [.dot],
    .unrestricted [.terminal "b", .nonterminal "A"] [.terminal "b"]]

theorem isExact_looping :
    CanStart looping [.nonterminal "S"] .eof ∧ CanStart looping [.nonterminal "S"] (.terminal "a") ∧
      ¬CanStart looping [.nonterminal "S"] (.terminal "b") ∧
      CanVanish looping [.nonterminal "A"] ∧ ¬CanVanish looping [.nonterminal "S"] ∧
      (ofProductions looping).isNullable (.nonterminal "B") = true := by
  obtain ⟨hstart, hvanish, -, hnull⟩ := isExact_ofProductions looping
  rw [← hstart, ← hstart, ← hstart, ← hvanish, ← hvanish, hnull _ rfl]
  decide +kernel

end FirstTable

end ShiftReduce
