import ShiftReduce.Proofs.ActionTable.Acceptance

set_option autoImplicit false

/-! # Which productions come up

An item stands in some state exactly when right sides lead from the start symbol to the left side of
its production, and its dot is then at every place of the right side. What the symbols on the way
derive does not matter: goto moves dots over symbols that cannot vanish and over symbols that derive
no word of terminals in the same way. Productions to which nothing leads are in no state, so they
are never reduced, whatever the FOLLOW table says.

**`ItemSet.IsReachable.isCovered`**: goto and closure come up with nothing else.
**`Automaton.exists_items?_and_mem_iff`**: the items that stand in some state.
**`Grammar.isCoveredBy_ofGrammar`**: the same for a grammar, and what it means for reductions. -/

namespace ShiftReduce

/-! ## Productions in use -/

/-- Whether `b` stands in a right side of `a`. -/
def Uses (ps : List Production) (a b : Symbol) : Prop :=
  ∃ p ∈ ps, p.lhs? = some a ∧ b ∈ p.right

/-- Whether right sides lead from `a` to the left side of the production. -/
def IsInUse (ps : List Production) (a : Symbol) (id : ProductionId) : Prop :=
  ∃ p s, ps[id]? = some p ∧ p.lhs? = some s ∧ Relation.ReflTransGen (Uses ps) a s

variable {g : AugmentedGrammar} {items : ItemSet} {i j : Item} {s x : Symbol} {id : ProductionId}

namespace AugmentedGrammar

/-- Whether the production is `S′ -> S` or a rule in use. -/
def Takes (g : AugmentedGrammar) (id : ProductionId) : Prop :=
  id = g.augmented ∨ IsInUse g.rules g.start id

/-- Right sides lead to every symbol in the right side of such a production. -/
theorem Takes.reflTransGen (h : g.Takes id) {p : Production} (hp : g.production? id = some p)
    (hs : s ∈ p.right) : Relation.ReflTransGen (Uses g.rules) g.start s := by
  rcases production?_eq_some_iff.1 hp with ⟨-, rfl⟩ | hrule
  · obtain rfl : s = g.start := by simpa [augmentedProduction, Production.augmented] using hs
    exact .refl
  · rcases h with rfl | ⟨q, a, hq, ha, hleads⟩
    · simp [augmented] at hrule
    · obtain rfl := Option.some.inj (hq.symm.trans hrule)
      exact hleads.tail ⟨q, List.mem_of_getElem? hrule, ha, hs⟩

theorem takes_of_reflTransGen {p : Production} (hp : g.production? id = some p)
    (hlhs : p.lhs? = some s) (hs : Relation.ReflTransGen (Uses g.rules) g.start s) :
    g.Takes id := by
  rcases production?_eq_some_iff.1 hp with ⟨hid, -⟩ | hrule
  · exact Or.inl hid
  · exact Or.inr ⟨p, s, hrule, hlhs, hs⟩

end AugmentedGrammar

/-! ## From states to productions -/

/-- Whether the dot is within the right side of `S′ -> S` or of a rule in use. -/
def Item.IsCovered (g : AugmentedGrammar) (i : Item) : Prop :=
  i.InRange g ∧ g.Takes i.production

theorem Item.isCovered_augmented (g : AugmentedGrammar) : Item.IsCovered g ⟨g.augmented, 0⟩ :=
  ⟨⟨g.augmentedProduction, g.production?_augmented, Nat.zero_le _⟩, Or.inl rfl⟩

theorem Item.IsCovered.advance (h : i.IsCovered g) (hx : i.next? g = some x) :
    i.advance.IsCovered g := by
  obtain ⟨p, hp, hx⟩ := Item.next?_eq_some_iff.1 hx
  exact ⟨⟨p, hp, (List.getElem?_eq_some_iff.1 hx).1⟩, h.2⟩

theorem Item.IsCovered.of_mem_predictions (h : i.IsCovered g) (hj : j ∈ i.predictions g) :
    j.IsCovered g := by
  obtain ⟨-, s, hs, hlhs⟩ := Item.mem_predictions_iff.1 hj
  obtain ⟨p, hp, hs⟩ := Item.next?_eq_some_iff.1 hs
  obtain ⟨q, hq, hlhs⟩ := Item.lhs?_eq_some_iff.1 hlhs
  refine ⟨ItemSet.inRange_of_mem_predictions hj, ?_⟩
  exact g.takes_of_reflTransGen hq hlhs (h.2.reflTransGen hp (List.mem_of_getElem? hs))

theorem Item.IsCovered.of_leads (h : i.IsCovered g) (hj : Item.Leads g i j) : j.IsCovered g := by
  induction hj with
  | refl => exact h
  | tail _ hlast ih => exact ih.of_mem_predictions hlast

namespace ItemSet

theorem IsReachable.isCovered (h : IsReachable g items) : ∀ i ∈ items, i.IsCovered g := by
  induction h with
  | refl =>
    intro j hj
    obtain ⟨i, hi, hleads⟩ := mem_closure_iff.1 hj
    obtain rfl : ⟨g.augmented, 0⟩ = i := by simpa using hi
    exact (Item.isCovered_augmented g).of_leads hleads
  | tail _ hstep ih =>
    obtain ⟨x, hgoto⟩ := hstep
    intro j hj
    obtain ⟨i, hi, hx, hleads⟩ := (mem_of_goto?_eq_some_iff hgoto).1 hj
    exact ((ih i hi).advance hx).of_leads hleads

/-! ## From productions to states -/

/-- The symbols of the right side move the dot to each of its places. -/
theorem IsReachable.exists_mem (h : IsReachable g items) {p : Production}
    (hid : ⟨id, 0⟩ ∈ items) (hp : g.production? id = some p) {d : Nat} (hd : d ≤ p.right.length) :
    ∃ target, IsReachable g target ∧ ⟨id, d⟩ ∈ target := by
  induction d with
  | zero => exact ⟨items, h, hid⟩
  | succ d ih =>
    obtain ⟨before, hbefore, hmem⟩ := ih (Nat.le_of_succ_le hd)
    have hnext : Item.next? g ⟨id, d⟩ = some p.right[d] :=
      Item.next?_eq_some_iff.2 ⟨p, hp, List.getElem?_eq_getElem hd⟩
    obtain ⟨target, hgoto, hadvance⟩ := exists_goto?_of_mem hmem hnext
    exact ⟨target, hbefore.goto hgoto, hadvance⟩

/-- A symbol to which right sides lead stands after a dot. -/
theorem exists_next?_of_reflTransGen (hs : Relation.ReflTransGen (Uses g.rules) g.start s) :
    ∃ items, IsReachable g items ∧ ∃ i ∈ items, i.next? g = some s := by
  induction hs with
  | refl =>
    refine ⟨_, .refl, ⟨g.augmented, 0⟩, subset_closure (by simp), ?_⟩
    exact Item.next?_eq_some_iff.2 ⟨g.augmentedProduction, g.production?_augmented, rfl⟩
  | @tail a b _ hstep ih =>
    obtain ⟨items, hitems, i, hi, hnext⟩ := ih
    obtain ⟨p, hp, hlhs, hb⟩ := hstep
    obtain ⟨id, hid⟩ := List.getElem?_of_mem hp
    obtain ⟨d, hd⟩ := List.getElem?_of_mem hb
    have hproduction := AugmentedGrammar.production?_of_getElem? hid
    -- The item before `a` predicts the rule, whose dot then moves up to `b`.
    have hpredicted : ⟨id, 0⟩ ∈ i.predictions g := Item.mem_predictions_iff.2
      ⟨rfl, a, hnext, Item.lhs?_eq_some_iff.2 ⟨p, hproduction, hlhs⟩⟩
    have hinitial : ⟨id, 0⟩ ∈ items := hitems.mem_of_mem_predictions hi hpredicted
    have hle : d ≤ p.right.length := Nat.le_of_lt (List.getElem?_eq_some_iff.1 hd).1
    obtain ⟨target, htarget, hmem⟩ := hitems.exists_mem hinitial hproduction hle
    exact ⟨target, htarget, _, hmem, Item.next?_eq_some_iff.2 ⟨p, hproduction, hd⟩⟩

theorem exists_isReachable_of_isCovered (h : i.IsCovered g) :
    ∃ items, IsReachable g items ∧ i ∈ items := by
  obtain ⟨⟨p, hp, hd⟩, haugmented | ⟨q, s, hq, hlhs, hs⟩⟩ := h
  · have hinitial : ⟨i.production, 0⟩ ∈ closure g {⟨g.augmented, 0⟩} :=
      subset_closure (by simp [haugmented])
    exact IsReachable.exists_mem .refl hinitial hp hd
  · have hproduction := AugmentedGrammar.production?_of_getElem? hq
    obtain ⟨items, hitems, j, hj, hnext⟩ := exists_next?_of_reflTransGen hs
    have hpredicted : ⟨i.production, 0⟩ ∈ j.predictions g := Item.mem_predictions_iff.2
      ⟨rfl, s, hnext, Item.lhs?_eq_some_iff.2 ⟨q, hproduction, hlhs⟩⟩
    exact hitems.exists_mem (hitems.mem_of_mem_predictions hj hpredicted) hp hd

end ItemSet

namespace Automaton

/-- **The items that stand in some state** are those of `S′ -> S` and of the rules in use. -/
theorem exists_items?_and_mem_iff :
    (∃ id items, (ofGrammar g).items? id = some items ∧ i ∈ items) ↔ i.IsCovered g := by
  constructor
  · rintro ⟨id, items, hid, hi⟩
    exact (exists_items?_iff.1 ⟨id, hid⟩).isCovered i hi
  · intro h
    obtain ⟨items, hitems, hi⟩ := ItemSet.exists_isReachable_of_isCovered h
    obtain ⟨id, hid⟩ := exists_items?_iff.2 hitems
    exact ⟨id, items, hid, hi⟩

theorem exists_mem_of_items? {id : StateId} (h : (ofGrammar g).items? id = some items) :
    ∃ i, i ∈ items := by
  obtain ⟨w, hw⟩ := ItemSet.isReachable_iff.1 (exists_items?_iff.1 ⟨id, h⟩)
  exact ItemSet.exists_mem_of_reached? hw

end Automaton

/-! ## Reductions -/

namespace TableSource

/-- Whether only rules in use are reduced, and all of them at the end of the input when `$` counts
    as following everything. -/
structure ReducesInUse (t : TableSource) (ps : List Production) (a : Symbol) : Prop where
  of_candidates : ∀ id s found p, t.candidates id s = .ok found → .reduce p ∈ found →
    IsInUse ps a p
  of_action? : ∀ table, ActionTable.build t = .ok table → ∀ id s p,
    table.action? id s = .ok (some (.reduce p)) → IsInUse ps a p
  exists_candidates : t.options.reduceOnAnyEof = true → ∀ p, IsInUse ps a p →
    ∃ id found, t.candidates id .eof = .ok found ∧ .reduce p ∈ found

theorem reducesInUse {t : TableSource} (ht : t.automaton = .ofGrammar g) :
    t.ReducesInUse g.rules g.start := by
  have hgrammar : t.automaton.grammar = g := by
    rw [ht]
    rfl
  have hfound : ∀ id s found p, t.candidates id s = .ok found → .reduce p ∈ found →
      IsInUse g.rules g.start p := by
    intro id s found p hfound hmem
    obtain ⟨st, hst, -, rfl⟩ := candidates_eq_ok_iff.1 hfound
    obtain ⟨q, lhs, hq, hlhs, hi, -⟩ := (reduce_mem_iff_isReducible ht hst).1 hmem
    have hid : (Automaton.ofGrammar g).items? id = some st.items :=
      Automaton.items?_eq_some_iff.2 ⟨st, ht ▸ hst, rfl⟩
    have hcovered := Automaton.exists_items?_and_mem_iff.1 ⟨id, st.items, hid, hi⟩
    refine hcovered.2.resolve_left ?_
    rintro rfl
    rw [hgrammar] at hq
    simp [AugmentedGrammar.augmented] at hq
  refine ⟨hfound, ?_, ?_⟩
  · intro table htable id s p haction
    rw [ActionTable.eq_tabulate_of_build htable, ActionTable.action?_tabulate_eq_ok_iff] at haction
    obtain ⟨found, hcell, hhead⟩ := haction
    exact hfound id s found p hcell (List.mem_of_head? hhead)
  · intro hany p hp
    obtain ⟨q, lhs, hq, hlhs, -⟩ := id hp
    have hcovered : Item.IsCovered g ⟨p, q.right.length⟩ :=
      ⟨⟨q, AugmentedGrammar.production?_of_getElem? hq, Nat.le_refl _⟩, Or.inr hp⟩
    obtain ⟨id, items, hid, hi⟩ := Automaton.exists_items?_and_mem_iff.2 hcovered
    rw [← ht] at hid
    obtain ⟨st, hst, rfl⟩ := Automaton.items?_eq_some_iff.1 hid
    refine ⟨id, _, candidates_eq_ok_iff.2 ⟨st, hst, Or.inl rfl, rfl⟩, ?_⟩
    exact (reduce_mem_iff_isReducible ht hst).2
      ⟨q, lhs, hgrammar.symm ▸ hq, hlhs, hi, Or.inl ⟨rfl, hany⟩⟩

end TableSource

/-! ## Grammars -/

namespace Grammar

/-- Whether the states hold the items of `S′ -> S` and of the productions in use, each at all places
    of its dot, and nothing else. -/
structure IsCoveredBy (g : Grammar) (a : Automaton) : Prop where
  mem_iff : ∀ i : Item, (∃ id items, a.items? id = some items ∧ i ∈ items) ↔
    i.InRange a.grammar ∧
      (i.production = a.grammar.augmented ∨ IsInUse g.productions g.start i.production)
  exists_mem : ∀ id items, a.items? id = some items → ∃ i, i ∈ items
  inRange : ∀ id items, a.items? id = some items → ∀ i ∈ items, i.InRange a.grammar

/-- **The states hold the items of the productions in use and no others**, with any FOLLOW table and
    any options these are the only ones that are reduced, and at the end of the input each of them
    is reduced in some state when `$` counts as following everything. -/
theorem isCoveredBy_ofGrammar (g : Grammar) (h : g.IsContextFree) :
    g.IsCoveredBy (.ofGrammar (g.augmented h)) ∧
      ∀ follow options,
        (g.tableSourceWith h follow options).ReducesInUse g.productions g.start := by
  refine ⟨⟨?_, ?_, ?_⟩, ?_⟩
  · intro i
    exact Automaton.exists_items?_and_mem_iff
  · intro id items hid
    exact Automaton.exists_mem_of_items? hid
  · intro id items hid
    exact Automaton.inRange_of_items? hid
  · intro follow options
    exact TableSource.reducesInUse (t := g.tableSourceWith h follow options) rfl

/-- Words of one letter, and a rule for `U` that nothing leads to. -/
def detached : Grammar where
  terminals := .ofList ([.terminal "a", .terminal "u"] : Word)
  nonterminals := .ofList ([.nonterminal "L", .nonterminal "U"] : Word)
  productions := [
    ⟨[.nonterminal "L"], [.terminal "a", .nonterminal "L"], .contextFree, by decide⟩,
    ⟨[.nonterminal "L"], [], .contextFree, by decide⟩,
    ⟨[.nonterminal "U"], [.nonterminal "L", .terminal "u"], .contextFree, by decide⟩]
  start := .nonterminal "L"
  sound := Parts.fault?_eq_none_iff.1 (by decide +kernel)
  distinct := by decide

theorem isContextFree_detached : detached.IsContextFree := by decide +kernel

/-- The rule of `U` is in no state and never reduced, and the empty rule of `L` is reduced at the
    end. -/
theorem isCoveredBy_detached :
    ∃ t, t = detached.tableSource isContextFree_detached ∧ t.options.reduceOnAnyEof = true ∧
      (∀ id items d, t.automaton.items? id = some items → ⟨2, d⟩ ∉ items) ∧
      (∀ id s found, t.candidates id s = .ok found → .reduce 2 ∉ found) ∧
      ∃ id found, t.candidates id .eof = .ok found ∧ .reduce 1 ∈ found := by
  obtain ⟨hcovered, hreduces⟩ := isCoveredBy_ofGrammar detached isContextFree_detached
  have hreduces := hreduces detached.followTable detached.options
  have hsymbols : ∀ s, Relation.ReflTransGen (Uses detached.productions) detached.start s →
      s ≠ .nonterminal "U" := by
    intro s hs
    rcases hs.cases_tail with rfl | ⟨b, -, p, hp, -, hs⟩
    · decide
    · have hright : ∀ p ∈ detached.productions, .nonterminal "U" ∉ p.right := by decide
      rintro rfl
      exact hright p hp hs
  have hunused : ¬IsInUse detached.productions detached.start 2 := by
    rintro ⟨p, s, hp, hs, hleads⟩
    obtain rfl : detached.productions[2] = p := Option.some.inj hp
    obtain rfl : .nonterminal "U" = s := Option.some.inj hs
    exact hsymbols _ hleads rfl
  refine ⟨_, rfl, rfl, ?_, ?_, ?_⟩
  · intro id items d hid hmem
    rcases ((hcovered.mem_iff ⟨2, d⟩).1 ⟨id, items, hid, hmem⟩).2 with haugmented | huse
    · exact absurd haugmented (show (2 : ProductionId) ≠ 3 by decide)
    · exact hunused huse
  · intro id s found hfound hmem
    exact hunused (hreduces.of_candidates id s found 2 hfound hmem)
  · exact hreduces.exists_candidates rfl 1 ⟨detached.productions[1], _, rfl, rfl, .refl⟩

end Grammar

end ShiftReduce
