import ShiftReduce.Grammar.Draft
import ShiftReduce.Proofs.Grammar.Validation

set_option autoImplicit false

/-! # What the steps of a draft come to

Each step brings something of its own: a symbol, a start symbol, options, or a rule. What all of
them bring together, in whatever order they come, are the parts that the draft is built from. A rule
that is refused brings its error instead, and the first such error is the answer. Since every named
symbol of a rule is declared with the rule, the only symbols that validation can still refuse are
sentinels.

**`Draft.records_ofSteps`**: the draft records what its steps bring.
**`Draft.build_ofSteps`**: building a draft is one validation of what its steps bring. -/

namespace ShiftReduce

/-- A rule is refused for no other reason than that its class does not admit it. -/
theorem Production.exists_eq_malformedProduction {tag : Production.Class} {left right : Word}
    {e : GrammarError} (h : Production.ofClass tag left right = .error e) :
    ∃ violated, e = .malformedProduction violated left right := by
  have hvalidate : tag.validate left right = .error e := by
    unfold ofClass at h
    split at h
    · simp at h
    · next e' he' =>
      obtain rfl := Except.error.inj h
      exact he'
  unfold Class.validate at hvalidate
  split at hvalidate
  · simp at hvalidate
  · next violated _ => exact ⟨violated, (Except.error.inj hvalidate).symm⟩

namespace Draft

/-! ## What steps bring -/

namespace Step

/-- The production of a step that brings one, or the error that it is refused with. -/
def made? : Step → Option (Except GrammarError Production)
  | .rule lhs right => some (Production.contextFree (.nonterminal lhs) right)
  | .ruleOf tag left right => some (Production.ofClass tag left right)
  | .production p => some (.ok p)
  | .terminal _ | .nonterminal _ | .start _ | .options _ => none

def production? (step : Step) : Option Production :=
  match step.made? with
  | some (.ok p) => some p
  | _ => none

def error? (step : Step) : Option GrammarError :=
  match step.made? with
  | some (.error e) => some e
  | _ => none

/-- The symbol that a step declares by name. A start symbol is a nonterminal, too. -/
def declared? : Step → Option Symbol
  | .terminal name => some (.terminal name)
  | .nonterminal name | .start name => some (.nonterminal name)
  | .options _ | .rule _ _ | .ruleOf _ _ _ | .production _ => none

def start? : Step → Option Symbol
  | .start name => some (.nonterminal name)
  | _ => none

def options? : Step → Option TableOptions
  | .options chosen => some chosen
  | _ => none

end Step

/-- The productions that the steps bring, in the order of the steps. -/
def productionsOf (steps : List Step) : List Production :=
  steps.filterMap Step.production?

/-- The symbols that the steps declare, and those of their productions. -/
def symbolsOf (steps : List Step) : Word :=
  steps.filterMap Step.declared? ++ (productionsOf steps).flatMap Production.symbols

/-- The start symbol given last, or else the left side of the first production that has one
    nonterminal there. -/
def startOf? (steps : List Step) : Option Symbol :=
  (steps.filterMap Step.start?).getLast? <|> (productionsOf steps).findSome? Production.lhs?

/-- The parts that the steps bring: all terminals, all named nonterminals, the productions, and the
    options given last. -/
def partsOf (steps : List Step) (s : Symbol) : Grammar.Parts where
  terminals := .ofList ((symbolsOf steps).filter Symbol.isTerminal)
  nonterminals := .ofList ((symbolsOf steps).filter fun s => s.isNonterminal && s != .start)
  productions := productionsOf steps
  start := s
  options := (steps.filterMap Step.options?).getLast?.getD {}

/-- What a draft with the given steps is built to. -/
def meaning (steps : List Step) : Except GrammarError Grammar :=
  match steps.findSome? Step.error?, startOf? steps with
  | some e, _ => .error e
  | none, none => .error .missingStart
  | none, some s => Grammar.ofParts (partsOf steps s)

variable {steps : List Step} {step : Step} {d : Draft} {s x : Symbol} {w : Word}
  {p : Production} {e : GrammarError}

theorem mem_symbolsOf_concat_iff :
    s ∈ symbolsOf (steps ++ [step]) ↔ s ∈ symbolsOf steps ∨ s ∈ symbolsOf [step] := by
  simp only [symbolsOf, productionsOf, List.filterMap_append, List.flatMap_append, List.mem_append]
  exact or_or_or_comm

/-! ## Declaring symbols -/

theorem mem_terminals_declare_iff :
    s ∈ (d.declare x).terminals ↔ s ∈ d.terminals ∨ x = s ∧ s.isTerminal = true := by
  cases x with
  | terminal name =>
    simp only [declare, Std.ExtTreeSet.mem_insert, Std.LawfulEqCmp.compare_eq_iff_eq]
    rw [or_comm]
    refine or_congr_right ⟨?_, And.left⟩
    rintro rfl
    exact ⟨rfl, rfl⟩
  | nonterminal name | start | eof | dot =>
    refine (or_iff_left ?_).symm
    rintro ⟨rfl, hs⟩
    simp [Symbol.isTerminal] at hs

theorem mem_nonterminals_declare_iff : s ∈ (d.declare x).nonterminals ↔
    s ∈ d.nonterminals ∨ x = s ∧ s.isNonterminal = true ∧ s ≠ .start := by
  cases x with
  | nonterminal name =>
    simp only [declare, Std.ExtTreeSet.mem_insert, Std.LawfulEqCmp.compare_eq_iff_eq]
    rw [or_comm]
    refine or_congr_right ⟨?_, And.left⟩
    rintro rfl
    exact ⟨rfl, rfl, Symbol.noConfusion⟩
  | start =>
    refine (or_iff_left ?_).symm
    rintro ⟨rfl, -, hs⟩
    exact hs rfl
  | terminal name | eof | dot =>
    refine (or_iff_left ?_).symm
    rintro ⟨rfl, hs, -⟩
    simp [Symbol.isNonterminal] at hs

theorem mem_terminals_foldl_declare_iff (w : Word) : s ∈ (w.foldl declare d).terminals ↔
    s ∈ d.terminals ∨ s ∈ w ∧ s.isTerminal = true := by
  induction w generalizing d with
  | nil => simp
  | cons x w ih =>
    rw [List.foldl_cons, ih, mem_terminals_declare_iff, List.mem_cons, or_and_right, or_assoc,
      eq_comm]

theorem mem_nonterminals_foldl_declare_iff (w : Word) : s ∈ (w.foldl declare d).nonterminals ↔
    s ∈ d.nonterminals ∨ s ∈ w ∧ s.isNonterminal = true ∧ s ≠ .start := by
  induction w generalizing d with
  | nil => simp
  | cons x w ih =>
    rw [List.foldl_cons, ih, mem_nonterminals_declare_iff, List.mem_cons, or_and_right, or_assoc,
      eq_comm]

/-- Declaring symbols changes the alphabets only. -/
theorem foldl_declare_eq (w : Word) (d : Draft) : w.foldl declare d =
    { d with
      terminals := (w.foldl declare d).terminals
      nonterminals := (w.foldl declare d).nonterminals } := by
  induction w generalizing d with
  | nil => rfl
  | cons x w ih =>
    rw [List.foldl_cons, ih]
    cases x <;> rfl

/-! ## What the draft records -/

/-- Whether the draft holds what the steps bring, all together. -/
structure Records (steps : List Step) (d : Draft) : Prop where
  mem_terminals : ∀ s, s ∈ d.terminals ↔ s ∈ symbolsOf steps ∧ s.isTerminal = true
  mem_nonterminals : ∀ s, s ∈ d.nonterminals ↔
    s ∈ symbolsOf steps ∧ s.isNonterminal = true ∧ s ≠ .start
  productions_eq : d.productions = productionsOf steps
  start?_eq : d.start? = (steps.filterMap Step.start?).getLast?
  options_eq : d.options = (steps.filterMap Step.options?).getLast?.getD {}
  error?_eq : d.error? = steps.findSome? Step.error?

theorem records_nil : Records [] {} := by
  constructor <;> simp [symbolsOf, productionsOf]

/-- A step that brings a production, or its error, brings nothing else. -/
theorem apply_of_made? {made : Except GrammarError Production} (h : step.made? = some made)
    (d : Draft) : d.apply step = d.addChecked made ∧
      step.declared? = none ∧ step.start? = none ∧ step.options? = none := by
  cases step with
  | terminal name | nonterminal name | start name | options chosen => simp [Step.made?] at h
  | rule lhs right | ruleOf tag left right | production p =>
    obtain rfl := Option.some.inj h
    exact ⟨rfl, rfl, rfl, rfl⟩

/-- What a step does to the draft, told by what it brings. -/
theorem apply_eq (d : Draft) (step : Step) : d.apply step =
    { (symbolsOf [step]).foldl declare d with
      productions := d.productions ++ productionsOf [step]
      start? := step.start? <|> d.start?
      options := step.options?.getD d.options
      error? := d.error? <|> step.error? } := by
  cases hmade : step.made? with
  | none =>
    have hproduction : step.production? = none := by rw [Step.production?, hmade]
    have herror : step.error? = none := by rw [Step.error?, hmade]
    have hproductions : productionsOf [step] = [] := List.filterMap_cons_none hproduction
    cases step with
    | terminal name | nonterminal name | start name | options chosen =>
      simp [apply, declare, symbolsOf, hproductions, herror, List.filterMap_cons, Step.declared?,
        Step.start?, Step.options?]
    | rule lhs right | ruleOf tag left right | production p => simp [Step.made?] at hmade
  | some made =>
    obtain ⟨happly, hother⟩ := apply_of_made? hmade d
    rw [happly]
    cases made with
    | ok p =>
      have hproduction : step.production? = some p := by rw [Step.production?, hmade]
      have herror : step.error? = none := by rw [Step.error?, hmade]
      rw [addChecked, addProduction, foldl_declare_eq]
      simp [symbolsOf, productionsOf, hproduction, herror, hother]
    | error e =>
      have hproduction : step.production? = none := by rw [Step.production?, hmade]
      have herror : step.error? = some e := by rw [Step.error?, hmade]
      simp [addChecked, symbolsOf, productionsOf, hproduction, herror, hother]

theorem getLast?_filterMap_concat {α β : Type} (f : α → Option β) (l : List α) (a : α) :
    ((l ++ [a]).filterMap f).getLast? = (f a <|> (l.filterMap f).getLast?) := by
  rw [List.filterMap_append]
  cases ha : f a with
  | none => simp [ha]
  | some b => simp [ha]

/-- One more step keeps the records in order. -/
theorem Records.apply (h : Records steps d) (step : Step) :
    Records (steps ++ [step]) (d.apply step) := by
  rw [apply_eq]
  refine ⟨?_, ?_, ?_, ?_, ?_, ?_⟩
  · intro s
    dsimp only
    rw [mem_terminals_foldl_declare_iff, h.mem_terminals, mem_symbolsOf_concat_iff, or_and_right]
  · intro s
    dsimp only
    rw [mem_nonterminals_foldl_declare_iff, h.mem_nonterminals, mem_symbolsOf_concat_iff,
      or_and_right]
  · dsimp only
    rw [h.productions_eq, productionsOf, productionsOf, productionsOf, List.filterMap_append]
  · dsimp only
    rw [h.start?_eq, getLast?_filterMap_concat]
  · dsimp only
    rw [h.options_eq, getLast?_filterMap_concat]
    cases step.options? <;> rfl
  · dsimp only
    rw [h.error?_eq, List.findSome?_append, List.findSome?_singleton, Option.orElse_eq_orElse,
      Option.orElse_eq_or]

theorem records_ofSteps (steps : List Step) : Records steps (ofSteps steps) := by
  induction steps using List.reverseRecOn with
  | nil => exact records_nil
  | append_singleton steps step ih =>
    rw [ofSteps, List.foldl_append]
    exact ih.apply step

/-! ## Building -/

theorem mem_terminals_partsOf_iff :
    s ∈ (partsOf steps x).terminals ↔ s ∈ symbolsOf steps ∧ s.isTerminal = true := by
  simp [partsOf]

theorem mem_nonterminals_partsOf_iff : s ∈ (partsOf steps x).nonterminals ↔
    s ∈ symbolsOf steps ∧ s.isNonterminal = true ∧ s ≠ .start := by
  simp [partsOf]

theorem build_eq_meaning (steps : List Step) : (ofSteps steps).build = meaning steps := by
  obtain ⟨hterminals, hnonterminals, hproductions, hstart, hoptions, herror⟩ :=
    records_ofSteps steps
  have hchosen : (ofSteps steps).chosenStart? = startOf? steps := by
    rw [chosenStart?, hstart, hproductions, startOf?]
  have hparts (s : Symbol) : (⟨(ofSteps steps).terminals, (ofSteps steps).nonterminals,
      (ofSteps steps).productions, s, (ofSteps steps).options⟩ : Grammar.Parts) =
        partsOf steps s := by
    have hterminals : (ofSteps steps).terminals = (partsOf steps s).terminals :=
      Std.ExtTreeSet.ext_mem fun x => by rw [hterminals, mem_terminals_partsOf_iff]
    have hnonterminals : (ofSteps steps).nonterminals = (partsOf steps s).nonterminals :=
      Std.ExtTreeSet.ext_mem fun x => by rw [hnonterminals, mem_nonterminals_partsOf_iff]
    rw [hterminals, hnonterminals, hproductions, hoptions]
    rfl
  unfold build meaning
  rw [herror, hchosen]
  cases steps.findSome? Step.error? with
  | some e => rfl
  | none =>
    cases startOf? steps with
    | none => rfl
    | some s => exact congrArg Grammar.ofParts (hparts s)

/-! ## Errors -/

/-- A symbol of a production that is neither a terminal nor a named nonterminal is a sentinel. -/
theorem isSentinel_of_not_knows (hs : s ∈ symbolsOf steps) (h : ¬(partsOf steps x).Knows s) :
    s.isSentinel = true := by
  rw [Grammar.Parts.Knows, mem_terminals_partsOf_iff, mem_nonterminals_partsOf_iff] at h
  cases s with
  | terminal name => exact absurd (Or.inl ⟨hs, rfl⟩) h
  | nonterminal name => exact absurd (Or.inr ⟨hs, rfl, Symbol.noConfusion⟩) h
  | start | eof | dot => rfl

/-- The start symbol is declared, or it stands alone on the left side of a production. -/
theorem mem_symbolsOf_of_startOf? (h : startOf? steps = some s) :
    s ∈ symbolsOf steps ∧ s.isNonterminal = true := by
  rw [startOf?, Option.orElse_eq_orElse, Option.orElse_eq_or, Option.or_eq_some_iff] at h
  rcases h with h | ⟨-, h⟩
  · obtain ⟨step, hstep, hs⟩ := List.mem_filterMap.1 (List.mem_of_getLast? h)
    cases step with
    | start name =>
      obtain rfl := Option.some.inj hs
      exact ⟨List.mem_append_left _ (List.mem_filterMap.2 ⟨_, hstep, rfl⟩), rfl⟩
    | terminal name | nonterminal name | options chosen | rule lhs right | ruleOf tag left right
    | production p => simp [Step.start?] at hs
  · obtain ⟨p, hp, hs⟩ := List.exists_of_findSome?_eq_some h
    refine ⟨List.mem_append_right _ (List.mem_flatMap.2 ⟨p, hp, ?_⟩),
      Production.isNonterminal_of_lhs? hs⟩
    rw [Production.symbols, Production.left_eq_of_lhs? hs]
    exact List.mem_cons_self

/-- The only error that a step brings is that its rule is refused. -/
theorem exists_malformedProduction_of_error? (h : step.error? = some e) :
    ∃ violated left right, e = .malformedProduction violated left right := by
  have hmade : step.made? = some (.error e) := by
    unfold Step.error? at h
    split at h
    · next e' he' =>
      obtain rfl := Option.some.inj h
      exact he'
    · simp at h
  cases step with
  | rule lhs right =>
    obtain ⟨violated, he⟩ := Production.exists_eq_malformedProduction (Option.some.inj hmade)
    exact ⟨violated, _, _, he⟩
  | ruleOf tag left right =>
    obtain ⟨violated, he⟩ := Production.exists_eq_malformedProduction (Option.some.inj hmade)
    exact ⟨violated, _, _, he⟩
  | production p => simp [Step.made?] at hmade
  | terminal name | nonterminal name | start name | options chosen => simp [Step.made?] at hmade

/-- An error is that of a rule, or there is no start symbol, or it is a fault of the parts. -/
theorem refused_of_meaning (h : meaning steps = .error e) :
    (∃ violated left right, e = .malformedProduction violated left right) ∨ e = .missingStart ∨
      ∃ s, startOf? steps = some s ∧ (partsOf steps s).Refuses e := by
  unfold meaning at h
  split at h
  · next e' _ he' =>
    obtain rfl := Except.error.inj h
    obtain ⟨step, -, hstep⟩ := List.exists_of_findSome?_eq_some he'
    exact Or.inl (exists_malformedProduction_of_error? hstep)
  · exact Or.inr (Or.inl (Except.error.inj h).symm)
  · next s _ hs =>
    have hrefuses := Grammar.Parts.refuses_of_fault? (Grammar.ofParts_eq_error_iff.1 h)
    exact Or.inr (Or.inr ⟨s, hs, hrefuses⟩)

/-- The alphabets of the parts hold terminals and named nonterminals only, and all of them that the
    steps bring, so few faults are left. -/
theorem faults_of_refuses (hs : startOf? steps = some s) (h : (partsOf steps s).Refuses e) :
    (∃ name, e = .ambiguousName name) ∨ e = .startNotInAlphabet .start ∨
      ∃ x, x.isSentinel = true ∧ e = .unknownSymbol x := by
  cases h with
  | notATerminal hx hterminal =>
    rw [(mem_terminals_partsOf_iff.1 hx).2] at hterminal
    simp at hterminal
  | ambiguousName _ _ _ => exact Or.inl ⟨_, rfl⟩
  | terminalAsNonterminal _ hx =>
    have hnon := (mem_nonterminals_partsOf_iff.1 hx).2.1
    simp [Symbol.isNonterminal] at hnon
  | @notANonterminal x _ hx hsentinel =>
    obtain ⟨-, hnon, hne⟩ := mem_nonterminals_partsOf_iff.1 hx
    cases x with
    | start => exact absurd rfl hne
    | terminal name | nonterminal name => simp [Symbol.isSentinel] at hsentinel
    | eof | dot => simp [Symbol.isNonterminal] at hnon
  | startNotInAlphabet _ _ hstart =>
    obtain ⟨hmem, hnon⟩ := mem_symbolsOf_of_startOf? hs
    by_cases hne : s = .start
    · exact Or.inr (Or.inl (congrArg GrammarError.startNotInAlphabet hne))
    · exact absurd (mem_nonterminals_partsOf_iff.2 ⟨hmem, hnon, hne⟩) hstart
  | @unknownSymbol x before after _ _ _ hsplit _ hnot =>
    have hx : x ∈ (productionsOf steps).flatMap Production.symbols := by
      show x ∈ (partsOf steps s).productions.flatMap Production.symbols
      rw [hsplit]
      exact List.mem_append_right before List.mem_cons_self
    exact Or.inr (Or.inr ⟨x, isSentinel_of_not_knows (List.mem_append_right _ hx) hnot, rfl⟩)

/-- **A draft is built by one validation of what its steps bring**, unless some rule was refused.
    Its own declarations leave few faults to find: no alphabet has a symbol of the wrong kind, only
    sentinels can be unknown, and only `S′` cannot be started from. -/
theorem build_ofSteps (steps : List Step) :
    (ofSteps steps).build = meaning steps ∧
      (∀ s, (ofSteps steps).build ≠ .error (.notATerminal s)) ∧
      (∀ name, (ofSteps steps).build ≠ .error (.terminalAsNonterminal name)) ∧
      (∀ s, (ofSteps steps).build ≠ .error (.notANonterminal s)) ∧
      (∀ s, (ofSteps steps).build = .error (.unknownSymbol s) → s.isSentinel = true) ∧
      ∀ s, (ofSteps steps).build = .error (.startNotInAlphabet s) → s = .start := by
  have hfaults : ∀ e, (ofSteps steps).build = .error e →
      (∃ violated left right, e = .malformedProduction violated left right) ∨ e = .missingStart ∨
      (∃ name, e = .ambiguousName name) ∨ e = .startNotInAlphabet .start ∨
      ∃ x, x.isSentinel = true ∧ e = .unknownSymbol x := by
    intro e he
    rw [build_eq_meaning] at he
    rcases refused_of_meaning he with hmade | hstart | ⟨s, hs, hrefuses⟩
    · exact Or.inl hmade
    · exact Or.inr (Or.inl hstart)
    · exact Or.inr (Or.inr (faults_of_refuses hs hrefuses))
  refine ⟨build_eq_meaning steps, ?_, ?_, ?_, ?_, ?_⟩
  · intro s he
    simpa using hfaults _ he
  · intro name he
    simpa using hfaults _ he
  · intro s he
    simpa using hfaults _ he
  · intro s he
    simpa using hfaults _ he
  · intro s he
    simpa using hfaults _ he

/-- A production with a sentinel on its right side. -/
def dotted : List Step :=
  [.production ⟨[.nonterminal "A"], [.dot], .unrestricted, by decide⟩]

/-- A production with `S′` on its left side. -/
def restarted : List Step :=
  [.production ⟨[.start], [.terminal "a"], .unrestricted, by decide⟩]

/-- Sentinels come with unrestricted productions, and no alphabet has them. -/
theorem build_ofSteps_sentinels :
    ((ofSteps dotted).build = .error (.unknownSymbol .dot) ∧ Symbol.dot.isSentinel = true) ∧
      ∃ s, (ofSteps restarted).build = .error (.startNotInAlphabet s) ∧ s = .start := by
  obtain ⟨hdot, -, -, -, hunknown, -⟩ := build_ofSteps dotted
  obtain ⟨hstart, -, -, -, -, hnot⟩ := build_ofSteps restarted
  have hdotFault : (partsOf dotted (.nonterminal "A")).fault? = some (.unknownSymbol .dot) := by
    decide +kernel
  have hstartFault : (partsOf restarted .start).fault? = some (.startNotInAlphabet .start) := by
    decide +kernel
  have hdot := hdot.trans (Grammar.ofParts_eq_error_iff.2 hdotFault)
  have hstart := hstart.trans (Grammar.ofParts_eq_error_iff.2 hstartFault)
  exact ⟨⟨hdot, hunknown _ hdot⟩, _, hstart, hnot _ hstart⟩

end Draft

end ShiftReduce
