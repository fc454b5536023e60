import ShiftReduce.Proofs.First.Exact
import ShiftReduce.Proofs.Follow.Least
import ShiftReduce.Proofs.Session.Coherent

set_option autoImplicit false

/-! # FOLLOW sets are what comes next in derivations

In a grammar no rule has a sentinel in it, so a right side derives words over the two alphabets only:
what it can start with are terminals, and it vanishes by deriving the empty word. The inclusions of
an occurrence `A -> α B β` are then about derivations. What `β` can be made to start with stands
behind `B` in a word derived from `A`, and when `β` can be made to vanish, `A` can be replaced by a
word that ends with `B`. All nonterminals count here, whether or not they can be reached from the
start symbol and whether or not they derive a word of terminals.

**`Grammar.canFollow_of_required`**: what the inclusions ask for comes next in some derivation.
**`Grammar.isExact_follow`**: FOLLOW sets are what can come next. -/

namespace ShiftReduce

namespace Grammar

variable {g : Grammar} {w : Word} {s x : Symbol}

/-- Whether `x` is a terminal that stands right behind `s` in a word derived from a nonterminal, or
    it is the end of the input and `s` stands at the end of a word derived from the start symbol. -/
def CanFollow (g : Grammar) (s x : Symbol) : Prop :=
  (x.isTerminal = true ∧ ∃ n ∈ g.nonterminals, ∃ before after,
    Derives g.productions [n] (before ++ s :: x :: after)) ∨
  (x = .eof ∧ ∃ before, Derives g.productions [g.start] (before ++ [s]))

/-- The same where only words derived from the start symbol count. -/
def CanFollowFromStart (g : Grammar) (s x : Symbol) : Prop :=
  (x.isTerminal = true ∧ ∃ before after,
    Derives g.productions [g.start] (before ++ s :: x :: after)) ∨
  (x = .eof ∧ ∃ before, Derives g.productions [g.start] (before ++ [s]))

/-- Whether every nonterminal stands in some word derived from the start symbol. -/
def IsReachable (g : Grammar) : Prop :=
  ∀ n ∈ g.nonterminals, ∃ before after, Derives g.productions [g.start] (before ++ n :: after)

/-! ## Symbols of the alphabets -/

theorem isSentinel_of_knows (h : g.Knows s) : s.isSentinel = false := by
  rcases h with h | h
  · have hterminal := g.sound.isTerminal s h
    cases s <;> simp_all [Symbol.isTerminal, Symbol.isSentinel]
  · obtain ⟨name, rfl, -⟩ := g.sound.isNonterminal s h
    rfl

theorem mem_nonterminals_of_knows (h : g.Knows s) (hs : s.isNonterminal = true) :
    s ∈ g.nonterminals := by
  refine h.resolve_left ?_
  intro hmem
  have hterminal := Symbol.isNonterminal_of_isTerminal (g.sound.isTerminal s hmem)
  simp [hs] at hterminal

theorem isNonterminal_of_mem_nonterminals (h : s ∈ g.nonterminals) : s.isNonterminal = true := by
  obtain ⟨name, rfl, -⟩ := g.sound.isNonterminal s h
  rfl

theorem knows_of_mem_right {p : Production} (hp : p ∈ g.productions) :
    ∀ s ∈ p.right, g.Knows s :=
  fun s hs => g.sound.knows p hp s (List.mem_append_right p.left hs)

theorem mem_nonterminals_of_lhs? {p : Production} (hp : p ∈ g.productions)
    (hs : p.lhs? = some s) : s ∈ g.nonterminals := by
  refine mem_nonterminals_of_knows (g.sound.knows p hp s ?_) (Production.isNonterminal_of_lhs? hs)
  unfold Production.lhs? at hs
  split at hs
  · next r hleft =>
    obtain rfl : r = s := Option.some.inj (Option.ite_none_right_eq_some.1 hs).2
    exact List.mem_append_left p.right (hleft ▸ List.mem_singleton.2 rfl)
  · simp at hs

/-- A word over the alphabets has no dots in it. -/
theorem eq_nil_of_isDots (hw : ∀ s ∈ w, g.Knows s) (h : Word.IsDots w) : w = [] := by
  refine List.eq_nil_iff_forall_not_mem.2 ?_
  intro s hs
  have hsentinel := isSentinel_of_knows (hw s hs)
  rw [h s hs] at hsentinel
  simp [Symbol.isSentinel] at hsentinel

/-! ## FIRST sets of words over the alphabets -/

/-- What a word over the alphabets can start with are the first terminals of what it derives. -/
theorem mem_firstOf_iff (hw : ∀ s ∈ w, g.Knows s) :
    x ∈ (g.firstTable.firstOf w).terminals ↔
      x.isTerminal = true ∧ ∃ after, Derives g.productions w (x :: after) := by
  refine ⟨?_, ?_⟩
  · intro h
    obtain ⟨hx, before, after, hdots, hder⟩ :=
      (FirstTable.isSound_ofProductions g.productions).canStart_of_mem_firstOf h
    have hknows := knows_of_derives hw hder
    obtain rfl := eq_nil_of_isDots (fun s hs => hknows s (List.mem_append_left _ hs)) hdots
    refine ⟨hx.resolve_right ?_, after, hder⟩
    rintro rfl
    have hsentinel := isSentinel_of_knows (hknows .eof (by simp))
    simp [Symbol.isSentinel] at hsentinel
  · rintro ⟨hx, after, hder⟩
    exact FirstTable.mem_firstOf_of_canStart (FirstTable.isClosed_ofProductions g.productions)
      ⟨Or.inl hx, [], after, .nil, hder⟩

theorem nullable_firstOf_iff (hw : ∀ s ∈ w, g.Knows s) :
    (g.firstTable.firstOf w).nullable = true ↔ Derives g.productions w [] := by
  refine ⟨?_, ?_⟩
  · intro h
    obtain ⟨dots, hdots, hder⟩ :=
      (FirstTable.isSound_ofProductions g.productions).canVanish_of_nullable h
    obtain rfl := eq_nil_of_isDots (knows_of_derives hw hder) hdots
    exact hder
  · intro h
    exact FirstTable.nullable_firstOf_of_canVanish
      (FirstTable.isClosed_ofProductions g.productions) ⟨[], .nil, h⟩

/-! ## What the inclusions ask for -/

/-- Where a symbol can be replaced by a word that ends with another one, this one is followed by
    what follows the first. -/
theorem CanFollow.of_derives {a b : Symbol} {before : Word} (h : g.CanFollow a x)
    (hab : Derives g.productions [a] (before ++ [b])) : g.CanFollow b x := by
  rcases h with ⟨hx, n, hn, u, z, hder⟩ | ⟨rfl, u, hder⟩
  · refine Or.inl ⟨hx, n, hn, u ++ before, z, hder.trans ?_⟩
    simpa using hab.context u (x :: z)
  · refine Or.inr ⟨rfl, u ++ before, hder.trans ?_⟩
    simpa using hab.context u []

theorem canFollow_of_required
    (h : (FollowTable.initial g.productions g.nonterminals g.start).Required g.firstTable
      g.productions s x) : g.CanFollow s x := by
  induction h with
  | held h =>
    obtain ⟨rfl, rfl⟩ := FollowTable.mem_entry_initial_iff.1 h
    exact Or.inr ⟨rfl, [], .refl⟩
  | @direct p before after b x hp hlhs hright hb hx =>
    obtain ⟨a, ha⟩ := Option.isSome_iff_exists.1 hlhs
    have hknows : ∀ s ∈ after, g.Knows s :=
      fun s hs => knows_of_mem_right hp s (by rw [hright]; simp [hs])
    obtain ⟨hx, rest, hder⟩ := (mem_firstOf_iff hknows).1 hx
    have hrule : Derives g.productions [a] (before ++ b :: after) := hright ▸ .of_lhs? hp ha
    refine Or.inl ⟨hx, a, mem_nonterminals_of_lhs? hp ha, before, rest, hrule.trans ?_⟩
    simpa using hder.context (before ++ [b]) []
  | @tail p before after a b x hp ha hright hb hnull _ ih =>
    have hknows : ∀ s ∈ after, g.Knows s :=
      fun s hs => knows_of_mem_right hp s (by rw [hright]; simp [hs])
    have hvanish := (nullable_firstOf_iff hknows).1 hnull
    have hrule : Derives g.productions [a] (before ++ b :: after) := hright ▸ .of_lhs? hp ha
    have hend : Derives g.productions [a] (before ++ [b]) :=
      hrule.trans (by simpa using hvanish.context (before ++ [b]) [])
    exact ih.of_derives hend

theorem mem_followTable_of_canFollow (hs : s.isNonterminal = true) (h : g.CanFollow s x) :
    x ∈ g.followTable.sets.entry s := by
  have hclosed : g.followTable.IsClosed g.firstTable g.productions :=
    FollowTable.isClosed_ofProductions _ _ _ _
  have hfirst : g.firstTable.IsClosed g.productions := FirstTable.isClosed_ofProductions _
  rcases h with ⟨hx, n, -, before, after, hder⟩ | ⟨rfl, before, hder⟩
  · have hbehind := (hclosed.mem_of_derives hfirst hder rfl hs).1
    exact hbehind x (FirstTable.mem_firstOf_cons (Or.inl hx) after)
  · have hend := (hclosed.mem_of_derives hfirst hder rfl hs).2
    exact hend rfl .eof (FollowTable.eof_mem_ofProductions _ _ _ _)

theorem mem_followTable_iff (hs : s.isNonterminal = true) :
    x ∈ g.followTable.sets.entry s ↔ g.CanFollow s x := by
  refine ⟨?_, mem_followTable_of_canFollow hs⟩
  intro h
  exact canFollow_of_required (FollowTable.mem_refine_iff.1 h)

/-- The nonterminals of the rules are in the alphabet, so all keys are. -/
theorem mem_sets_followTable_iff : s ∈ g.followTable.sets ↔ s ∈ g.nonterminals := by
  show s ∈ ((FollowTable.initial _ _ _).refine _ _).1.sets ↔ _
  rw [FollowTable.mem_sets_refine_iff, FollowTable.mem_sets_initial_iff]
  refine ⟨?_, ?_⟩
  · rintro ((rfl | ⟨hs, hmem | ⟨p, hp, hmem⟩⟩) | ⟨p, hp, -, hs, hmem⟩)
    · exact g.sound.start_mem
    · exact hmem
    · exact mem_nonterminals_of_knows (g.sound.knows p hp s hmem) hs
    · exact mem_nonterminals_of_knows (knows_of_mem_right hp s hmem) hs
  · intro h
    exact Or.inl (Or.inr ⟨isNonterminal_of_mem_nonterminals h, Or.inl h⟩)

/-- From a start symbol that reaches every nonterminal, one derivation leads to the other. -/
theorem IsReachable.canFollow_iff (h : g.IsReachable) :
    g.CanFollow s x ↔ g.CanFollowFromStart s x := by
  refine or_congr_left ⟨?_, ?_⟩
  · rintro ⟨hx, n, hn, before, after, hder⟩
    obtain ⟨u, z, hstart⟩ := h n hn
    refine ⟨hx, u ++ before, after ++ z, hstart.trans ?_⟩
    simpa using hder.context u z
  · rintro ⟨hx, before, after, hder⟩
    exact ⟨hx, g.start, g.sound.start_mem, before, after, hder⟩

/-- **The FOLLOW sets of a context-free grammar are what can come next in derivations**, and there
    is one for each nonterminal and for nothing else. When the start symbol reaches every
    nonterminal, the derivations that begin there are enough. -/
theorem isExact_follow (g : Grammar) (h : g.IsContextFree) :
    ∃ t, g.answer Session.follow = .ok t ∧
      (∀ s, (t.get? s).isSome = true ↔ s ∈ g.nonterminals) ∧
      (∀ s xs, t.get? s = some xs → ∀ x, x ∈ xs ↔ g.CanFollow s x) ∧
      (g.IsReachable → ∀ s xs, t.get? s = some xs → ∀ x, x ∈ xs ↔ g.CanFollowFromStart s x) := by
  have hkeys : ∀ s, (g.followTable.get? s).isSome = true ↔ s ∈ g.nonterminals := by
    intro s
    rw [← mem_sets_followTable_iff, Std.ExtTreeMap.mem_iff_isSome_getElem?]
    rfl
  have hmem : ∀ s xs, g.followTable.get? s = some xs → ∀ x, x ∈ xs ↔ g.CanFollow s x := by
    intro s xs hxs x
    have hs : s ∈ g.nonterminals := (hkeys s).1 (by rw [hxs]; rfl)
    rw [← mem_followTable_iff (isNonterminal_of_mem_nonterminals hs),
      Family.entry_eq_of_getElem? hxs]
  refine ⟨g.followTable, answer_eq_of_answers (Session.answers_follow h), hkeys, hmem, ?_⟩
  intro hreachable s xs hxs x
  rw [hmem s xs hxs x, hreachable.canFollow_iff]

/-- Sequences with a tail that may be missing, may begin with `b` or may be a sequence again, so
    that `S` and `T` hand their FOLLOW sets on to each other. -/
def tails : Grammar where
  terminals := .ofList ([.terminal "a", .terminal "b", .terminal "u", .terminal "v"] : Word)
  nonterminals := .ofList ([.nonterminal "A", .nonterminal "S", .nonterminal "T"] : Word)
  productions := [
    ⟨[.nonterminal "S"], [.nonterminal "A", .nonterminal "T"], .contextFree, by decide⟩,
    ⟨[.nonterminal "A"], [.terminal "a"], .contextFree, by decide⟩,
    ⟨[.nonterminal "A"], [.terminal "u", .nonterminal "S", .terminal "v"], .contextFree, by decide⟩,
    ⟨[.nonterminal "T"], [.nonterminal "S"], .contextFree, by decide⟩,
    ⟨[.nonterminal "T"], [.terminal "b", .nonterminal "T"], .contextFree, by decide⟩,
    ⟨[.nonterminal "T"], [], .contextFree, by decide⟩]
  start := .nonterminal "S"
  sound := Parts.fault?_eq_none_iff.1 (by decide +kernel)
  distinct := by decide

theorem isContextFree_tails : tails.IsContextFree := by decide +kernel

theorem isReachable_tails : tails.IsReachable := by
  have hrule : Derives tails.productions [tails.start] [.nonterminal "A", .nonterminal "T"] :=
    .of_lhs? (p := tails.productions[0]) (by simp) rfl
  intro n hn
  have hmem : n ∈ ([.nonterminal "A", .nonterminal "S", .nonterminal "T"] : Word) :=
    List.contains_iff_mem.1 (Std.ExtTreeSet.mem_ofList.1 hn)
  simp only [List.mem_cons, List.not_mem_nil, or_false] at hmem
  rcases hmem with rfl | rfl | rfl
  · exact ⟨[], [.nonterminal "T"], hrule⟩
  · exact ⟨[], [], .refl⟩
  · exact ⟨[.nonterminal "A"], [], hrule⟩

theorem isExact_follow_tails :
    tails.IsContextFree ∧ tails.IsReachable ∧
      tails.CanFollowFromStart (.nonterminal "A") (.terminal "v") ∧
      tails.CanFollowFromStart (.nonterminal "T") .eof ∧
      ¬tails.CanFollowFromStart (.nonterminal "T") (.terminal "b") := by
  obtain ⟨t, ht, -, -, hmem⟩ := isExact_follow tails isContextFree_tails
  obtain rfl : tails.followTable = t := Except.ok.inj
    ((answer_eq_of_answers (Session.answers_follow isContextFree_tails)).symm.trans ht)
  have hsets : tails.followTable.get? (.nonterminal "A") =
        some (.ofList ([.terminal "a", .terminal "b", .terminal "u", .terminal "v", .eof] : Word)) ∧
      tails.followTable.get? (.nonterminal "T") =
        some (.ofList ([.terminal "v", .eof] : Word)) := by
    decide +kernel
  have hA := hmem isReachable_tails _ _ hsets.1
  have hT := hmem isReachable_tails _ _ hsets.2
  refine ⟨isContextFree_tails, isReachable_tails, ?_, ?_, ?_⟩
  · exact (hA _).1 (by decide +kernel)
  · exact (hT _).1 (by decide +kernel)
  · rw [← hT]
    decide +kernel

end Grammar

end ShiftReduce
