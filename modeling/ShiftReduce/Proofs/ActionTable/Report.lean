import ShiftReduce.Proofs.ActionTable.Acceptance
import ShiftReduce.Proofs.Follow.Exact

set_option autoImplicit false

/-! # The report of conflicts

A table goes through its states, and in each of them through the lookaheads: first the terminals in
the order in which the productions use them, then the terminals that no production uses, then the
end of the input. An alphabet has no order of its own, so only the order of the unused terminals is
left open. It cannot be seen, because no item has an unused terminal after its dot and nothing is
followed by one, so their cells are empty.

**`TableSource.pairwise_conflicts`**: conflicts are listed by state and then by lookahead.
**`Grammar.candidatesIn_eq_nil`**: terminals that no production uses have no candidates.
**`Grammar.isOrderedReport_of_reports`**: the report of a grammar is in this order, whichever way
its alphabet is listed. -/

namespace ShiftReduce

/-! ## First uses -/

/-- Without repetitions a list is in the order of its first occurrences, also when members are
    left out. -/
theorem pairwise_idxOf_eraseDups_filter {α : Type} [BEq α] [LawfulBEq α] (l : List α)
    (p : α → Bool) : (l.filter p).eraseDups.Pairwise fun a b => l.idxOf a < l.idxOf b := by
  induction l generalizing p with
  | nil => exact List.Pairwise.nil
  | cons c rest ih =>
    have hrest : ∀ q : α → Bool, q c = false →
        (rest.filter q).eraseDups.Pairwise fun a b =>
          (c :: rest).idxOf a < (c :: rest).idxOf b := by
      intro q hq
      have hne : ∀ a ∈ (rest.filter q).eraseDups, c ≠ a := by
        rintro a ha rfl
        rw [List.mem_eraseDups, List.mem_filter, hq] at ha
        exact Bool.noConfusion ha.2
      refine (ih q).imp_of_mem fun {a b} ha hb hlt => ?_
      rw [List.idxOf_cons_ne _ (hne a ha), List.idxOf_cons_ne _ (hne b hb)]
      exact Nat.succ_lt_succ hlt
    cases hc : p c with
    | false =>
      rw [List.filter_cons_of_neg (by simp [hc])]
      exact hrest p hc
    | true =>
      rw [List.filter_cons_of_pos hc, List.eraseDups_cons, List.filter_filter, List.pairwise_cons]
      refine ⟨?_, hrest _ (by simp)⟩
      intro b hb
      have hne : c ≠ b := by
        rintro rfl
        simp [List.mem_eraseDups] at hb
      rw [List.idxOf_cons_self, List.idxOf_cons_ne _ hne]
      exact Nat.succ_pos _

/-! ## Lookaheads in any order -/

namespace TableSource

variable {t : TableSource} {st : State} {s : Symbol} {lookaheads listing : List Symbol}

/-- The cells of a state for the given lookaheads. -/
def cellsAlong (t : TableSource) (lookaheads : List Symbol) (st : State) :
    List (Symbol × List Action) :=
  lookaheads.map fun s => (s, t.candidatesIn st s)

def rowAlong (t : TableSource) (lookaheads : List Symbol) (st : State) :
    Std.ExtTreeMap Symbol Action :=
  .ofList ((t.cellsAlong lookaheads st).filterMap fun (s, found) =>
    found.head?.map fun a => (s, a))

def conflictsAlong (t : TableSource) (lookaheads : List Symbol) (st : State) (id : StateId) :
    List Conflict :=
  (t.cellsAlong lookaheads st).filterMap fun (s, found) =>
    if 1 < found.length then some ⟨id, s, found⟩ else none

/-- The terminals that the productions use, and the end of the input. -/
def usedLookaheads (t : TableSource) : List Symbol :=
  t.usedTerminals ++ [.eof]

/-- The lookaheads when the alphabet is gone through in the order of the listing. -/
def lookaheadsFrom (t : TableSource) (listing : List Symbol) : List Symbol :=
  t.usedTerminals ++ listing.filter (· ∉ t.usedTerminals) ++ [.eof]

theorem lookaheadsFrom_toList (t : TableSource) :
    t.lookaheadsFrom t.terminals.toList = t.lookaheads := rfl

/-- Whether no state has a candidate for the lookahead. -/
def IsIdle (t : TableSource) (s : Symbol) : Prop :=
  ∀ st ∈ t.automaton.states, t.candidatesIn st s = []

/-- Nothing is seen of unused terminals by what passes over empty cells. -/
theorem filterMap_cellsAlong {β : Type} {f : Symbol × List Action → Option β}
    (hf : ∀ s, f (s, []) = none) (hst : st ∈ t.automaton.states)
    (hidle : ∀ s ∈ listing, s ∉ t.usedTerminals → t.IsIdle s) :
    (t.cellsAlong (t.lookaheadsFrom listing) st).filterMap f =
      (t.cellsAlong t.usedLookaheads st).filterMap f := by
  have hunused : (t.cellsAlong (listing.filter (· ∉ t.usedTerminals)) st).filterMap f = [] := by
    rw [cellsAlong, List.filterMap_map, List.filterMap_eq_nil_iff]
    intro s hs
    obtain ⟨hs, hused⟩ := List.mem_filter.1 hs
    rw [Function.comp_apply, hidle s hs (of_decide_eq_true hused) st hst, hf]
  simp only [cellsAlong, lookaheadsFrom, usedLookaheads, List.map_append,
    List.filterMap_append] at hunused ⊢
  rw [hunused, List.append_nil]

theorem pairwise_conflictsAlong {r : Symbol → Symbol → Prop} {id : StateId}
    (h : lookaheads.Pairwise r) :
    (t.conflictsAlong lookaheads st id).Pairwise fun c d => r c.lookahead d.lookahead := by
  rw [conflictsAlong, cellsAlong, List.pairwise_filterMap, List.pairwise_map]
  refine h.imp fun {s s'} hr c hc d hd => ?_
  rw [← Option.some.inj (Option.ite_none_right_eq_some.1 hc).2,
    ← Option.some.inj (Option.ite_none_right_eq_some.1 hd).2]
  exact hr

theorem state_of_mem_conflictsAlong {id : StateId} {c : Conflict}
    (h : c ∈ t.conflictsAlong lookaheads st id) : c.state = id := by
  obtain ⟨⟨s, found⟩, -, hc⟩ := List.mem_filterMap.1 h
  rw [← Option.some.inj (Option.ite_none_right_eq_some.1 hc).2]

end TableSource

namespace ActionTable

open TableSource

variable {t : TableSource} {listing : List Symbol}

/-- The table when the lookaheads are taken in the given order. -/
def tabulateAlong (t : TableSource) (lookaheads : List Symbol) : ActionTable where
  rows := t.automaton.states.map (t.rowAlong lookaheads)
  terminals := t.terminals
  conflicts := t.automaton.states.zipIdx.flatMap fun (st, id) => t.conflictsAlong lookaheads st id

/-- What building comes to when the alphabet is gone through in the order of the listing. -/
def buildFrom (t : TableSource) (listing : List Symbol) : Except GrammarError ActionTable :=
  (tabulateAlong t (t.lookaheadsFrom listing)).enforce t.options

theorem tabulateAlong_lookaheads (t : TableSource) : tabulateAlong t t.lookaheads = tabulate t :=
  rfl

/-- Only the used terminals and the end of the input matter, when the others have no candidates. -/
theorem tabulateAlong_lookaheadsFrom
    (hidle : ∀ s ∈ listing, s ∉ t.usedTerminals → t.IsIdle s) :
    tabulateAlong t (t.lookaheadsFrom listing) = tabulateAlong t t.usedLookaheads := by
  have hrows : ∀ st ∈ t.automaton.states,
      t.rowAlong (t.lookaheadsFrom listing) st = t.rowAlong t.usedLookaheads st := by
    intro st hst
    rw [rowAlong, filterMap_cellsAlong (fun _ => rfl) hst hidle]
    rfl
  have hconflicts : ∀ x ∈ t.automaton.states.zipIdx,
      t.conflictsAlong (t.lookaheadsFrom listing) x.1 x.2 =
        t.conflictsAlong t.usedLookaheads x.1 x.2 :=
    fun x hx => filterMap_cellsAlong (fun _ => rfl) (List.fst_mem_of_mem_zipIdx hx) hidle
  simp only [tabulateAlong, List.map_congr_left hrows, List.flatMap_congr hconflicts]

/-- Conflicts are listed by state and then in the order of the lookaheads. -/
theorem pairwise_conflicts {r : Symbol → Symbol → Prop}
    (hr : t.usedLookaheads.Pairwise r)
    (hidle : ∀ s ∈ t.terminals, s ∉ t.usedTerminals → t.IsIdle s) :
    (tabulate t).conflicts.Pairwise fun c d =>
      c.state < d.state ∨ c.state = d.state ∧ r c.lookahead d.lookahead := by
  have hplaces : t.automaton.states.zipIdx.Pairwise fun x y => x.2 < y.2 := by
    rw [← List.pairwise_map (f := Prod.snd), List.zipIdx_map_snd]
    exact List.pairwise_lt_range'
  have hused : tabulate t = tabulateAlong t t.usedLookaheads := by
    rw [← tabulateAlong_lookaheads, ← t.lookaheadsFrom_toList, tabulateAlong_lookaheadsFrom]
    exact fun s hs => hidle s (Std.ExtTreeSet.mem_toList.1 hs)
  rw [hused, tabulateAlong, List.pairwise_flatMap]
  refine ⟨?_, hplaces.imp ?_⟩
  · intro x _
    refine (pairwise_conflictsAlong hr).imp_of_mem fun {c d} hc hd hlt => Or.inr ⟨?_, hlt⟩
    rw [state_of_mem_conflictsAlong hc, state_of_mem_conflictsAlong hd]
  · intro x y hlt c hc d hd
    rw [state_of_mem_conflictsAlong hc, state_of_mem_conflictsAlong hd]
    exact Or.inl hlt

end ActionTable

/-! ## The report of a grammar -/

namespace Grammar

variable {g : Grammar} {a s : Symbol}

/-- Whether some production has the symbol in it. -/
def Mentions (g : Grammar) (s : Symbol) : Prop :=
  ∃ p ∈ g.productions, s ∈ p.symbols

/-- Where the productions use the symbol first, when their symbols are counted from the first
    production to the last and from left to right. What they do not use comes after all of them. -/
def firstUse (g : Grammar) (s : Symbol) : Nat :=
  (g.productions.flatMap Production.symbols).idxOf s

theorem mem_flatMap_symbols_iff : s ∈ g.productions.flatMap Production.symbols ↔ g.Mentions s :=
  List.mem_flatMap

theorem firstUse_lt_firstUse_eof (h : g.Mentions s) : g.firstUse s < g.firstUse .eof := by
  have heof : .eof ∉ g.productions.flatMap Production.symbols := by
    rw [mem_flatMap_symbols_iff]
    rintro ⟨p, hp, hmem⟩
    exact Bool.noConfusion (isSentinel_of_mem hp hmem)
  rw [firstUse, firstUse, List.idxOf_of_notMem heof]
  exact List.idxOf_lt_length_iff.2 (mem_flatMap_symbols_iff.2 h)

/-! ## Terminals that are not used -/

/-- What follows a symbol has come from a right side, unless it is the end of the input. -/
theorem CanFollow.mentions (h : g.CanFollow a s) (hs : s.isTerminal = true) : g.Mentions s := by
  rcases h with ⟨-, n, hn, before, after, hder⟩ | ⟨rfl, -⟩
  · rcases hder.mem_or_exists_mem_right (s := s) (by simp) with hmem | ⟨p, hp, hmem⟩
    · obtain rfl := List.mem_singleton.1 hmem
      have hnonterminal := isNonterminal_of_mem_nonterminals hn
      rw [Symbol.isNonterminal_of_isTerminal hs] at hnonterminal
      exact Bool.noConfusion hnonterminal
    · exact ⟨p, hp, List.mem_append_right p.left hmem⟩
  · exact Bool.noConfusion hs

theorem isIdle_of_not_mentions (h : g.IsContextFree) (hs : s ∈ g.terminals)
    (hnot : ¬g.Mentions s) : (g.tableSource h).IsIdle s := by
  have hterminal := g.sound.isTerminal s hs
  intro st _
  refine List.eq_nil_iff_forall_not_mem.2 fun action haction => ?_
  cases action with
  | shift target =>
    obtain ⟨⟨i, -, hnext⟩, -⟩ := TableSource.shift_mem_candidatesIn_iff.1 haction
    obtain ⟨p, hp, hget⟩ := Item.next?_eq_some_iff.1 hnext
    rcases AugmentedGrammar.production?_eq_some_iff.1 hp with ⟨-, rfl⟩ | hrule
    · obtain rfl : s = g.start := List.mem_singleton.1 (List.mem_of_getElem? hget)
      obtain ⟨name, hname, -⟩ := g.sound.isNonterminal g.start g.sound.start_mem
      rw [hname] at hterminal
      exact Bool.noConfusion hterminal
    · exact hnot ⟨p, List.mem_of_getElem? hrule,
        List.mem_append_right p.left (List.mem_of_getElem? hget)⟩
  | reduce id =>
    obtain ⟨i, -, -, -, lhs, hlhs, hmay⟩ := TableSource.reduce_mem_candidatesIn_iff.1 haction
    obtain ⟨p, -, hlhs⟩ := Item.lhs?_eq_some_iff.1 hlhs
    rcases (TableSource.mayReduce_iff.1 hmay).2 with ⟨rfl, -⟩ | ⟨set, hset, hmem⟩
    · exact Bool.noConfusion hterminal
    · rw [← Family.entry_eq_of_getElem? hset] at hmem
      have hfollow := (mem_followTable_iff (Production.isNonterminal_of_lhs? hlhs)).1 hmem
      exact hnot (hfollow.mentions hterminal)
  | accept =>
    obtain ⟨rfl, -⟩ := TableSource.accept_mem_candidatesIn_iff.1 haction
    exact Bool.noConfusion hterminal

/-- The production `S′ -> S` uses no terminal. -/
theorem usedTerminals_tableSource (h : g.IsContextFree) : (g.tableSource h).usedTerminals =
    ((g.productions.flatMap Production.symbols).filter (· ∈ g.terminals)).eraseDups := by
  have haugmented :
      ((g.augmented h).augmentedProduction.symbols).filter (· ∈ g.terminals) = [] := by
    rw [List.filter_eq_nil_iff]
    intro s hs hmem
    have hterminal := g.sound.isTerminal s (of_decide_eq_true hmem)
    obtain ⟨name, hname, -⟩ := g.sound.isNonterminal g.start g.sound.start_mem
    have hs : s ∈ [.start, g.start] := hs
    rw [hname] at hs
    simp only [List.mem_cons, List.not_mem_nil, or_false] at hs
    rcases hs with rfl | rfl <;> exact Bool.noConfusion hterminal
  show (((g.productions ++ [(g.augmented h).augmentedProduction]).flatMap
    Production.symbols).filter (· ∈ g.terminals)).eraseDups = _
  rw [List.flatMap_append, List.filter_append, List.flatMap_singleton, haugmented, List.append_nil]

theorem mem_usedTerminals_iff (h : g.IsContextFree) :
    s ∈ (g.tableSource h).usedTerminals ↔ g.Mentions s ∧ s ∈ g.terminals := by
  rw [usedTerminals_tableSource, List.mem_eraseDups, List.mem_filter, mem_flatMap_symbols_iff,
    decide_eq_true_eq]

/-- The lookaheads come in the order of their first uses. -/
theorem pairwise_usedLookaheads (h : g.IsContextFree) :
    (g.tableSource h).usedLookaheads.Pairwise fun s s' => g.firstUse s < g.firstUse s' := by
  rw [TableSource.usedLookaheads, List.pairwise_append]
  refine ⟨?_, List.pairwise_singleton _ _, ?_⟩
  · rw [usedTerminals_tableSource]
    exact pairwise_idxOf_eraseDups_filter _ _
  · intro s hs s' hs'
    rw [List.mem_singleton.1 hs']
    exact firstUse_lt_firstUse_eof ((mem_usedTerminals_iff h).1 hs).1

theorem isIdle_of_not_mem_usedTerminals (h : g.IsContextFree) :
    ∀ s ∈ g.terminals, s ∉ (g.tableSource h).usedTerminals → (g.tableSource h).IsIdle s := by
  intro s hs hunused
  refine isIdle_of_not_mentions h hs fun hmentions => hunused ?_
  exact (mem_usedTerminals_iff h).2 ⟨hmentions, hs⟩

/-! ## The report -/

/-- Whether these are the conflicts of which the ACTION table tells, or its refusal. -/
def Reports (g : Grammar) (conflicts : List Conflict) : Prop :=
  g.answer Session.actionTable = .error (.conflicts conflicts) ∨
    ∃ table, g.answer Session.actionTable = .ok table ∧ table.conflicts = conflicts

theorem reports_tabulate (h : g.IsContextFree) :
    g.Reports (ActionTable.tabulate (g.tableSource h)).conflicts := by
  unfold Reports
  rw [answer_actionTable h, ActionTable.build, ActionTable.enforce]
  split
  · exact Or.inl rfl
  · exact Or.inr ⟨_, rfl, rfl⟩

/-- There is one report at most. -/
theorem Reports.unique {conflicts conflicts' : List Conflict} (h : g.Reports conflicts)
    (h' : g.Reports conflicts') : conflicts = conflicts' := by
  rcases h with h | ⟨table, h, rfl⟩ <;> rcases h' with h' | ⟨table', h', rfl⟩
  · exact GrammarError.conflicts.inj (Except.error.inj (h.symm.trans h'))
  · nomatch h.symm.trans h'
  · nomatch h.symm.trans h'
  · exact congrArg ActionTable.conflicts (Except.ok.inj (h.symm.trans h'))

/-- Whether the conflicts are listed by state and then by the first use of the lookahead, each cell
    once, and all lookaheads are used or are the end of the input. -/
structure IsOrderedReport (g : Grammar) (conflicts : List Conflict) : Prop where
  pairwise : conflicts.Pairwise fun c d => c.state < d.state ∨
    c.state = d.state ∧ g.firstUse c.lookahead < g.firstUse d.lookahead
  nodup : (conflicts.map fun c => (c.state, c.lookahead)).Nodup
  lookahead : ∀ c ∈ conflicts, c.lookahead = .eof ∨
    c.lookahead ∈ g.terminals ∧ g.Mentions c.lookahead

theorem isOrderedReport_tabulate (h : g.IsContextFree) :
    g.IsOrderedReport (ActionTable.tabulate (g.tableSource h)).conflicts where
  pairwise :=
    ActionTable.pairwise_conflicts (pairwise_usedLookaheads h) (isIdle_of_not_mem_usedTerminals h)
  nodup := (ActionTable.listsConflicts_tabulate (t := g.tableSource h) g.sound.isTerminal).nodup
  lookahead c hc := by
    obtain ⟨hfound, hlen⟩ := ActionTable.mem_conflicts_tabulate_iff.1 hc
    obtain ⟨st, hst, hlookahead, hfound⟩ := TableSource.candidates_eq_ok_iff.1 hfound
    rcases hlookahead with heof | hmem
    · exact Or.inl heof
    · refine Or.inr ⟨hmem, ?_⟩
      by_contra hnot
      rw [← hfound, isIdle_of_not_mentions h hmem hnot st (List.mem_of_getElem? hst)] at hlen
      exact absurd hlen (by simp)

/-- **The report of conflicts is in the order of the grammar**: by state, then by the first use of
    the lookahead in the productions, with the end of the input last. Terminals that no production
    uses have no candidates, so it makes no difference in which order the alphabet is gone
    through. -/
theorem isOrderedReport_of_reports (g : Grammar) (h : g.IsContextFree) :
    (∃ conflicts, g.Reports conflicts) ∧
    (∀ conflicts, g.Reports conflicts → g.IsOrderedReport conflicts) ∧
    (∀ s, g.Mentions s → g.firstUse s < g.firstUse .eof) ∧
    (∀ s ∈ g.terminals, ¬g.Mentions s → ∀ id < (Automaton.ofGrammar (g.augmented h)).size,
      (g.tableSource h).candidates id s = .ok []) ∧
    ∀ listing, listing.Perm g.terminals.toList →
      ActionTable.buildFrom (g.tableSource h) listing = g.answer Session.actionTable := by
  refine ⟨⟨_, reports_tabulate h⟩, ?_, ?_, ?_, ?_⟩
  · intro conflicts hconflicts
    rw [hconflicts.unique (reports_tabulate h)]
    exact isOrderedReport_tabulate h
  · intro s hs
    exact firstUse_lt_firstUse_eof hs
  · intro s hs hnot id hid
    refine TableSource.candidates_eq_ok_iff.2 ⟨_, List.getElem?_eq_getElem hid, Or.inr hs, ?_⟩
    exact isIdle_of_not_mentions h hs hnot _ (List.getElem_mem hid)
  · intro listing hlisting
    have hidle := isIdle_of_not_mem_usedTerminals h
    have hanyOrder : ActionTable.tabulateAlong (g.tableSource h)
        ((g.tableSource h).lookaheadsFrom listing) = .tabulate (g.tableSource h) := by
      rw [← ActionTable.tabulateAlong_lookaheads, ← TableSource.lookaheadsFrom_toList,
        ActionTable.tabulateAlong_lookaheadsFrom, ActionTable.tabulateAlong_lookaheadsFrom]
      · exact fun s hs => hidle s (Std.ExtTreeSet.mem_toList.1 hs)
      · exact fun s hs => hidle s (Std.ExtTreeSet.mem_toList.1 (hlisting.mem_iff.1 hs))
    rw [answer_actionTable h, ActionTable.buildFrom, hanyOrder, ActionTable.build]

/-- Sequences of the letters `b` and `a`, which the rules use in this order, and two letters more
    that they do not use. -/
def pairs : Grammar where
  terminals := .ofList ([.terminal "a", .terminal "b", .terminal "u", .terminal "v"] : Word)
  nonterminals := .ofList ([.nonterminal "P"] : Word)
  productions := [
    ⟨[.nonterminal "P"], [.nonterminal "P", .nonterminal "P"], .contextFree, by decide⟩,
    ⟨[.nonterminal "P"], [.terminal "b"], .contextFree, by decide⟩,
    ⟨[.nonterminal "P"], [.terminal "a"], .contextFree, by decide⟩]
  start := .nonterminal "P"
  sound := Parts.fault?_eq_none_iff.1 (by decide +kernel)
  distinct := by decide

theorem isContextFree_pairs : pairs.IsContextFree := by decide +kernel

/-- The state after two `P` has a conflict before `b` and then one before `a`, and none before the
    letters that are not used, wherever these stand in the listing. -/
theorem isOrderedReport_pairs :
    ∃ t conflicts, t = pairs.tableSource isContextFree_pairs ∧ pairs.Reports conflicts ∧
      conflicts.map (fun c => (c.state, c.lookahead)) =
        [(4, .terminal "b"), (4, .terminal "a")] ∧
      pairs.IsOrderedReport conflicts ∧ t.candidates 4 (.terminal "u") = .ok [] ∧
      ∃ listing : List Symbol,
        listing = [.terminal "v", .terminal "a", .terminal "u", .terminal "b"] ∧
        listing.Perm pairs.terminals.toList ∧
        ActionTable.buildFrom t listing = pairs.answer Session.actionTable := by
  let t := pairs.tableSource isContextFree_pairs
  obtain ⟨-, hordered, -, hidle, hlisting⟩ := isOrderedReport_of_reports pairs isContextFree_pairs
  have hreports : pairs.Reports (ActionTable.tabulate t).conflicts :=
    reports_tabulate isContextFree_pairs
  have hcells : (ActionTable.tabulate t).conflicts.map (fun c => (c.state, c.lookahead)) =
      [(4, .terminal "b"), (4, .terminal "a")] := by decide +kernel
  have hunused : ¬pairs.Mentions (.terminal "u") := by
    unfold Mentions
    decide
  have hperm : List.Perm [.terminal "v", .terminal "a", .terminal "u", .terminal "b"]
      pairs.terminals.toList := by decide +kernel
  refine ⟨t, _, rfl, hreports, hcells, hordered _ hreports, ?_, _, rfl, hperm, hlisting _ hperm⟩
  exact hidle _ (by decide +kernel) hunused 4 (by decide +kernel)

end Grammar

end ShiftReduce
