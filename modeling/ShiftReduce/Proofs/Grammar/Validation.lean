import Mathlib.Data.List.Induction
import ShiftReduce.Grammar.Augmented

set_option autoImplicit false

/-! # Validation of grammars

The checks of a grammar are made one after the other, and the first one that fails is reported.
They find the same with or without the repeated rules, since a rule that came before has the same
symbols. A production is kept where its rule stands first, so one more copy of a rule at the end is
dropped.

**`Production.distinct_eq_firstOccurrences`**: what is kept is told by places in the list.
**`Grammar.Parts.refuses_of_fault?`**: the fault is that of the first check that fails.
**`Grammar.isValidated_ofParts`**: exactly sound parts make a grammar, and it has the first of equal
rules. -/

namespace ShiftReduce

/-! ## Repeated rules -/

namespace Production

variable {p q : Production} {ps : List Production} {s : Symbol}

/-- The productions that have no production with the same rule before them, in order. -/
def firstOccurrences (ps : List Production) : List Production :=
  (ps.zipIdx.filter fun (p, i) => !(ps.take i).any (p.sameRule ·)).map Prod.fst

theorem sameRule_comm (p q : Production) : p.sameRule q = q.sameRule p := by
  rw [Bool.eq_iff_iff, sameRule_iff, sameRule_iff, eq_comm, eq_comm (a := p.right)]

theorem sameRule_trans {r : Production} (h : p.sameRule q = true) (h' : q.sameRule r = true) :
    p.sameRule r = true := by
  rw [sameRule_iff] at h h' ⊢
  exact ⟨h.1.trans h'.1, h.2.trans h'.2⟩

theorem symbols_eq_of_sameRule (h : p.sameRule q = true) : p.symbols = q.symbols := by
  obtain ⟨hleft, hright⟩ := sameRule_iff.1 h
  rw [symbols, symbols, hleft, hright]

/-- Each rule is kept, though perhaps with the class of an earlier production. -/
theorem exists_mem_distinct (h : p ∈ ps) : ∃ q ∈ distinct ps, p.sameRule q = true := by
  induction ps with
  | nil => simp at h
  | cons r rest ih =>
    by_cases hr : p.sameRule r = true
    · exact ⟨r, List.mem_cons_self, hr⟩
    · have hne : p ≠ r := by
        rintro rfl
        exact hr (sameRule_iff.2 ⟨rfl, rfl⟩)
      obtain ⟨q, hq, hpq⟩ := ih ((List.mem_cons.1 h).resolve_left hne)
      refine ⟨q, List.mem_cons_of_mem r (List.mem_filter.2 ⟨hq, ?_⟩), hpq⟩
      rw [Bool.not_eq_true', ← Bool.not_eq_true, sameRule_comm]
      exact fun hqr => hr (sameRule_trans hpq hqr)

/-- A production at the end is kept when its rule is new. -/
theorem distinct_concat (ps : List Production) (p : Production) :
    distinct (ps ++ [p]) = if ps.any (p.sameRule ·) then distinct ps else distinct ps ++ [p] := by
  induction ps with
  | nil => rfl
  | cons q rest ih =>
    rw [List.cons_append, distinct, ih, distinct, List.any_cons, sameRule_comm p q]
    by_cases hrest : rest.any (p.sameRule ·) = true
    · simp [hrest]
    · by_cases hq : q.sameRule p = true
      · simp [hrest, hq]
      · simp [hrest, hq]

theorem firstOccurrences_concat (ps : List Production) (p : Production) :
    firstOccurrences (ps ++ [p]) =
      if ps.any (p.sameRule ·) then firstOccurrences ps else firstOccurrences ps ++ [p] := by
  have hbefore : ((ps.zipIdx).filter fun (q, i) => !((ps ++ [p]).take i).any (q.sameRule ·)) =
      (ps.zipIdx).filter fun (q, i) => !(ps.take i).any (q.sameRule ·) := by
    refine List.filter_congr ?_
    rintro ⟨q, i⟩ hq
    have hlt : i < ps.length := (List.mem_zipIdx' hq).1
    dsimp only
    rw [List.take_append_of_le_length (Nat.le_of_lt hlt)]
  rw [firstOccurrences, List.zipIdx_append, List.filter_append, hbefore, List.map_append]
  by_cases hany : ps.any (p.sameRule ·) = true
  · simp [hany, firstOccurrences]
  · simp [hany, firstOccurrences]

theorem distinct_eq_firstOccurrences (ps : List Production) :
    distinct ps = firstOccurrences ps := by
  induction ps using List.reverseRecOn with
  | nil => rfl
  | append_singleton ps p ih => rw [distinct_concat, firstOccurrences_concat, ih]

/-- The first symbol of some kind is the same without the repeated rules. -/
theorem find?_symbols_distinct (ps : List Production) (f : Symbol → Bool) :
    ((distinct ps).flatMap symbols).find? f = (ps.flatMap symbols).find? f := by
  induction ps using List.reverseRecOn with
  | nil => rfl
  | append_singleton ps p ih =>
    rw [distinct_concat, List.flatMap_append, List.find?_append, ← ih]
    split
    · next hany =>
      -- A symbol of the repeated rule would have been found where the rule came first.
      obtain ⟨q, hq, hpq⟩ := List.any_eq_true.1 hany
      obtain ⟨r, hr, hqr⟩ := exists_mem_distinct hq
      cases hfind : ((distinct ps).flatMap symbols).find? f with
      | some s => rfl
      | none =>
        rw [Option.none_or, eq_comm, List.find?_eq_none]
        intro s hs
        rw [List.flatMap_singleton, symbols_eq_of_sameRule (sameRule_trans hpq hqr)] at hs
        exact List.find?_eq_none.1 hfind s (List.mem_flatMap.2 ⟨r, hr, hs⟩)
    · rw [List.flatMap_append, List.find?_append]

end Production

namespace Grammar

/-! ## The first fault -/

namespace Parts

variable {g : Parts} {e : GrammarError} {s : Symbol}

/-- Whether all members of the first alphabet are terminals. -/
def HasTerminals (g : Parts) : Prop :=
  ∀ s ∈ g.terminals, s.isTerminal = true

/-- Whether all members of the second alphabet are named nonterminals, with names of their own. -/
def HasNonterminals (g : Parts) : Prop :=
  ∀ s ∈ g.nonterminals, ∃ name, s = .nonterminal name ∧ .terminal name ∉ g.terminals

/-- What the error says is wrong with the parts, and that nothing is wrong that is checked before.
    An unknown symbol is the first one of the productions, as they are read from left to right. -/
inductive Refuses (g : Parts) : GrammarError → Prop where
  | notATerminal {s : Symbol} : s ∈ g.terminals → s.isTerminal = false → Refuses g (.notATerminal s)
  | ambiguousName {name : String} : g.HasTerminals → .nonterminal name ∈ g.nonterminals →
    .terminal name ∈ g.terminals → Refuses g (.ambiguousName name)
  | terminalAsNonterminal {name : String} : g.HasTerminals → .terminal name ∈ g.nonterminals →
    Refuses g (.terminalAsNonterminal name)
  | notANonterminal {s : Symbol} : g.HasTerminals → s ∈ g.nonterminals → s.isSentinel = true →
    Refuses g (.notANonterminal s)
  | startNotInAlphabet : g.HasTerminals → g.HasNonterminals → g.start ∉ g.nonterminals →
    Refuses g (.startNotInAlphabet g.start)
  | unknownSymbol {s : Symbol} {before after : Word} : g.HasTerminals → g.HasNonterminals →
    g.start ∈ g.nonterminals → g.productions.flatMap Production.symbols = before ++ s :: after →
    (∀ x ∈ before, g.Knows x) → ¬g.Knows s → Refuses g (.unknownSymbol s)

theorem sound_iff : g.Sound ↔ g.HasTerminals ∧ g.HasNonterminals ∧ g.start ∈ g.nonterminals ∧
    ∀ p ∈ g.productions, ∀ s ∈ p.symbols, g.Knows s :=
  ⟨fun h => ⟨h.1, h.2, h.3, h.4⟩, fun ⟨ht, hn, hs, hk⟩ => ⟨ht, hn, hs, hk⟩⟩

theorem refuses_of_terminalFault? (h : g.terminalFault? = some e) : g.Refuses e := by
  obtain ⟨s, hs, rfl⟩ := Option.map_eq_some_iff.1 h
  refine .notATerminal (Std.ExtTreeSet.mem_toList.1 (List.mem_of_find?_eq_some hs)) ?_
  simpa using List.find?_some hs

theorem refuses_of_nonterminalFault? (ht : g.HasTerminals) (h : g.nonterminalFault? = some e) :
    g.Refuses e := by
  obtain ⟨s, hs, hfault⟩ := List.exists_of_findSome?_eq_some h
  have hs := Std.ExtTreeSet.mem_toList.1 hs
  cases s with
  | nonterminal name =>
    obtain ⟨hterm, rfl⟩ : .terminal name ∈ g.terminals ∧ .ambiguousName name = e := by
      simpa [memberFault?] using hfault
    exact .ambiguousName ht hs hterm
  | terminal name =>
    obtain rfl := Option.some.inj hfault
    exact .terminalAsNonterminal ht hs
  | start =>
    obtain rfl := Option.some.inj hfault
    exact .notANonterminal ht hs rfl
  | eof =>
    obtain rfl := Option.some.inj hfault
    exact .notANonterminal ht hs rfl
  | dot =>
    obtain rfl := Option.some.inj hfault
    exact .notANonterminal ht hs rfl

theorem refuses_of_startFault? (ht : g.HasTerminals) (hn : g.HasNonterminals)
    (h : g.startFault? = some e) : g.Refuses e := by
  obtain ⟨hstart, rfl⟩ : g.start ∉ g.nonterminals ∧ .startNotInAlphabet g.start = e := by
    simpa [startFault?] using h
  exact .startNotInAlphabet ht hn hstart

theorem refuses_of_symbolFault? (ht : g.HasTerminals) (hn : g.HasNonterminals)
    (hstart : g.start ∈ g.nonterminals) (h : g.symbolFault? = some e) : g.Refuses e := by
  obtain ⟨s, hs, rfl⟩ := Option.map_eq_some_iff.1 h
  obtain ⟨hnot, before, after, hsplit, hbefore⟩ := List.find?_eq_some_iff_append.1 hs
  refine .unknownSymbol ht hn hstart hsplit ?_ (by simpa using hnot)
  intro x hx
  simpa using hbefore x hx

/-- The checks are made in order, and each is made only when those before it have passed. -/
theorem refuses_of_fault? (h : g.fault? = some e) : g.Refuses e := by
  simp only [fault?, Option.orElse_eq_orElse, Option.orElse_eq_or, Option.or_eq_some_iff,
    terminalFault?_eq_none_iff, nonterminalFault?_eq_none_iff, startFault?_eq_none_iff] at h
  rcases h with h | ⟨ht, h | ⟨hn, h | ⟨hstart, h⟩⟩⟩
  · exact refuses_of_terminalFault? h
  · exact refuses_of_nonterminalFault? ht h
  · exact refuses_of_startFault? ht hn h
  · exact refuses_of_symbolFault? ht hn hstart h

/-- The same fault is found when repeated rules have been dropped. -/
theorem fault?_distinct (g : Parts) :
    fault? { g with productions := Production.distinct g.productions } = g.fault? := by
  have hsymbol : symbolFault? { g with productions := Production.distinct g.productions } =
      g.symbolFault? :=
    congrArg (Option.map GrammarError.unknownSymbol)
      (Production.find?_symbols_distinct g.productions fun s => !g.Knows s)
  rw [fault?, hsymbol]
  rfl

end Parts

/-! ## Answers -/

variable {parts : Parts} {g : Grammar} {e : GrammarError}

theorem ofParts_eq_error_iff : ofParts parts = .error e ↔ parts.fault? = some e := by
  rw [← Parts.fault?_distinct]
  unfold ofParts
  dsimp only
  split
  · next hnone => simp [hnone]
  · next fault hfault => simp [hfault]

theorem ofParts_eq_ok_iff : ofParts parts = .ok g ↔ parts.Sound ∧
    g.toParts = { parts with productions := Production.distinct parts.productions } := by
  rw [← Parts.fault?_eq_none_iff, ← Parts.fault?_distinct]
  unfold ofParts
  dsimp only
  split
  · next hnone =>
    obtain ⟨kept, hsound, hdistinct⟩ := g
    rw [Except.ok.injEq, Grammar.mk.injEq, and_iff_right hnone, eq_comm]
  · next fault hfault => simp [hfault]

theorem exists_ofParts_eq_ok_iff : (∃ g, ofParts parts = .ok g) ↔ parts.Sound := by
  refine ⟨?_, ?_⟩
  · rintro ⟨g, hg⟩
    exact (ofParts_eq_ok_iff.1 hg).1
  · intro hsound
    cases hparts : ofParts parts with
    | ok g => exact ⟨g, rfl⟩
    | error e =>
      rw [ofParts_eq_error_iff, Parts.fault?_eq_none_iff.2 hsound] at hparts
      nomatch hparts

/-- A production whose rule is there already is dropped at the end, and no fault comes with it. -/
theorem ofParts_concat {p q : Production} (hq : q ∈ parts.productions)
    (hsame : q.sameRule p = true) :
    ofParts { parts with productions := parts.productions ++ [p] } = ofParts parts := by
  have hany : parts.productions.any (p.sameRule ·) = true :=
    List.any_eq_true.2 ⟨q, hq, Production.sameRule_comm q p ▸ hsame⟩
  have hkept : Production.distinct (parts.productions ++ [p]) =
      Production.distinct parts.productions := by
    rw [Production.distinct_concat, if_pos hany]
  have hfault : Parts.fault? { parts with productions := parts.productions ++ [p] } =
      parts.fault? := by
    rw [← Parts.fault?_distinct, ← Parts.fault?_distinct parts, hkept]
  cases hparts : ofParts parts with
  | ok g =>
    rw [ofParts_eq_ok_iff, ← Parts.fault?_eq_none_iff] at hparts ⊢
    rw [hfault, hkept]
    exact hparts
  | error e =>
    rw [ofParts_eq_error_iff] at hparts ⊢
    rw [hfault, hparts]

/-- Whether the answer tells exactly whether the parts are sound, gives them with the first of equal
    productions when they are, and reports their first fault when they are not. -/
structure IsValidated (parts : Parts) (answer : Except GrammarError Grammar) : Prop where
  isOk_iff : (∃ g, answer = .ok g) ↔ parts.HasTerminals ∧ parts.HasNonterminals ∧
    parts.start ∈ parts.nonterminals ∧ ∀ p ∈ parts.productions, ∀ s ∈ p.symbols, parts.Knows s
  toParts_eq : ∀ g, answer = .ok g →
    g.toParts = { parts with productions := Production.firstOccurrences parts.productions }
  refuses : ∀ e, answer = .error e → parts.Refuses e

/-- **Validation is exact**: sound parts make a grammar, in which of equal rules the first is kept
    with its class, and other parts are refused for their first fault. So no rule of a grammar has a
    sentinel in it, and one more copy of a rule, whatever its class, makes no difference. -/
theorem isValidated_ofParts (parts : Parts) :
    IsValidated parts (ofParts parts) ∧
      (∀ g : Grammar, ∀ p ∈ g.productions,
        .start ∉ p.symbols ∧ .eof ∉ p.symbols ∧ .dot ∉ p.symbols) ∧
      ∀ q ∈ parts.productions, ∀ p : Production, p.left = q.left → p.right = q.right →
        ofParts { parts with productions := parts.productions ++ [p] } = ofParts parts := by
  refine ⟨⟨?_, ?_, ?_⟩, ?_, ?_⟩
  · rw [exists_ofParts_eq_ok_iff, Parts.sound_iff]
  · intro g hg
    rw [← Production.distinct_eq_firstOccurrences]
    exact (ofParts_eq_ok_iff.1 hg).2
  · intro e he
    exact Parts.refuses_of_fault? (ofParts_eq_error_iff.1 he)
  · intro g p hp
    have hsentinel : ∀ s : Symbol, s.isSentinel = true → s ∉ p.symbols := by
      intro s hs hmem
      rw [isSentinel_of_mem hp hmem] at hs
      nomatch hs
    exact ⟨hsentinel .start rfl, hsentinel .eof rfl, hsentinel .dot rfl⟩
  · intro q hq p hleft hright
    exact ofParts_concat hq (Production.sameRule_iff.2 ⟨hleft.symm, hright.symm⟩)

/-- One rule over two alphabets. -/
def Parts.single : Parts where
  terminals := .ofList ([.terminal "r"] : Word)
  nonterminals := .ofList ([.nonterminal "R"] : Word)
  productions := [⟨[.nonterminal "R"], [.terminal "r"], .contextFree, by decide⟩]
  start := .nonterminal "R"

/-- The rule is not added again as an unrestricted one. -/
theorem isValidated_single : ∃ g : Grammar, ofParts Parts.single = .ok g ∧
    g.productions = [⟨[.nonterminal "R"], [.terminal "r"], .contextFree, by decide⟩] ∧
    ofParts { Parts.single with
      productions := Parts.single.productions ++
        [⟨[.nonterminal "R"], [.terminal "r"], .unrestricted, by decide⟩] } = .ok g := by
  obtain ⟨hvalid, -, hcopy⟩ := isValidated_ofParts Parts.single
  have hsound : Parts.single.Sound := Parts.fault?_eq_none_iff.1 (by decide +kernel)
  obtain ⟨g, hg⟩ := hvalid.isOk_iff.2 (Parts.sound_iff.1 hsound)
  refine ⟨g, hg, ?_, ?_⟩
  · rw [hvalid.toParts_eq g hg]
    rfl
  · exact (hcopy _ (List.mem_singleton_self _) _ rfl rfl).trans hg

end Grammar

end ShiftReduce
