import ShiftReduce.Proofs.Automaton.Path
import ShiftReduce.Proofs.Derivation.Rightmost

set_option autoImplicit false

/-! # Viable prefixes

A step of a rightmost derivation from `S′` replaces a nonterminal by a right side, the handle. What
can stand on a parser's stack are the words that begin such a derived word and do not reach past its
handle. An item is valid for such a word when the word ends within the handle, at the item's dot.

The automaton reads exactly these words: going forward, every word derived from `S′` by rightmost
steps has before each of its nonterminals a word that leads to the items of that nonterminal. Going
back, an item that a word leads to is valid for it, as long as everything can be derived to
terminals.

**`Automaton.holdsAfter_isValidFor`**: a word leads to the items that are valid for it. -/

namespace ShiftReduce

variable {g : AugmentedGrammar} {items : ItemSet} {v w : Word} {x s : Symbol}

/-! ## Valid items -/

/-- A rightmost derivation from `S′` comes to `before ++ s :: after`, and the production turns its
    last nonterminal `s` into the handle `p.right`. -/
def IsHandle (g : AugmentedGrammar) (id : ProductionId) (p : Production) (before after : Word) :
    Prop :=
  g.production? id = some p ∧ after.IsTerminal ∧ ∃ s ids, p.lhs? = some s ∧
    DerivesRightmost g.productions ids [.start] (before ++ s :: after)

/-- The word ends within a handle of the item's production, where the item has its dot. -/
def Item.IsValidFor (g : AugmentedGrammar) (i : Item) (w : Word) : Prop :=
  ∃ p before after, IsHandle g i.production p before after ∧ i.dot ≤ p.right.length ∧
    w = before ++ p.right.take i.dot

/-- The word begins a word derived from `S′` by rightmost steps, and does not reach past the
    handle. -/
def IsViablePrefix (g : AugmentedGrammar) (w : Word) : Prop :=
  ∃ id p before after, IsHandle g id p before after ∧ w <+: before ++ p.right

theorem Item.IsValidFor.isViablePrefix {i : Item} (h : i.IsValidFor g w) : IsViablePrefix g w := by
  obtain ⟨p, before, after, hhandle, -, rfl⟩ := h
  refine ⟨i.production, p, before, after, hhandle, ?_⟩
  exact (List.prefix_append_right_inj before).2 (List.take_prefix i.dot p.right)

/-- The word in which the handle has replaced the nonterminal is derived too. -/
theorem IsHandle.derivesRightmost {id : ProductionId} {p : Production} {before after : Word}
    (h : IsHandle g id p before after) : ∃ ids,
      DerivesRightmost g.productions (ids ++ [id]) [.start] (before ++ p.right ++ after) := by
  obtain ⟨hp, hafter, s, ids, hs, hder⟩ := h
  rw [g.production?_eq_getElem?] at hp
  exact ⟨ids, hder.trans (.single ⟨p, hp, s, hs, before, after, hafter, rfl, rfl⟩)⟩

/-! ## From derivations to items -/

/-- Before each nonterminal of the word stands a word that leads to an item with this nonterminal
    after its dot, unless it is `S′`, and to the initial items of its productions. -/
def IsTracked (g : AugmentedGrammar) (w : Word) : Prop :=
  ∀ before s after, w = before ++ s :: after → s.isNonterminal = true →
    ∃ items, ItemSet.reached? g before = some items ∧
      (s = .start ∨ ∃ i ∈ items, i.next? g = some s) ∧
      ∀ id, Item.lhs? g ⟨id, 0⟩ = some s → ⟨id, 0⟩ ∈ items

theorem isTracked_start (g : AugmentedGrammar) : IsTracked g [.start] := by
  intro before s after h _
  obtain ⟨rfl, h⟩ | ⟨_, h, -⟩ := List.append_eq_cons_iff.1 h.symm
  · obtain ⟨rfl, -⟩ := List.cons.inj h
    refine ⟨ItemSet.start g, rfl, Or.inl rfl, ?_⟩
    intro id hid
    obtain ⟨p, hp, hlhs⟩ := Item.lhs?_eq_some_iff.1 hid
    have hmem := AugmentedGrammar.mem_productionsOf_iff.2 ⟨hp, hlhs⟩
    simp only [AugmentedGrammar.productionsOf, List.mem_singleton, Prod.mk.injEq] at hmem
    rw [hmem.1]
    exact ItemSet.subset_closure (by simp)
  · simp_all

/-- A nonterminal inside a right side is tracked: the item of the production is carried to it, and
    predicts its items there. -/
theorem exists_reached?_of_right {before a b : Word} {p : Production} {id : ProductionId}
    (hbefore : ItemSet.reached? g before = some items) (hid : ⟨id, 0⟩ ∈ items)
    (hp : g.production? id = some p) (hright : p.right = a ++ s :: b) :
    ∃ target, ItemSet.reached? g (before ++ a) = some target ∧
      (s = .start ∨ ∃ i ∈ target, i.next? g = some s) ∧
      ∀ id', Item.lhs? g ⟨id', 0⟩ = some s → ⟨id', 0⟩ ∈ target := by
  obtain ⟨target, htarget, hmem⟩ := ItemSet.exists_reached?_append hbefore hid hp
    (by rw [List.drop_zero, hright])
  have hnext : Item.next? g ⟨id, 0 + a.length⟩ = some s := by
    rw [Item.next?_eq_some_iff]
    exact ⟨p, hp, by simp [hright]⟩
  refine ⟨target, htarget, Or.inr ⟨_, hmem, hnext⟩, ?_⟩
  intro id' hlhs
  exact ItemSet.mem_reached?_of_mem_predictions htarget hmem
    (Item.mem_predictions_iff.2 ⟨rfl, s, hnext, hlhs⟩)

theorem IsTracked.yieldsRightmost {id : ProductionId} (hv : IsTracked g v)
    (h : YieldsRightmost g.productions id v w) : IsTracked g w := by
  obtain ⟨p, hp, s, hs, u, z, hz, rfl, rfl⟩ := h
  rw [← g.production?_eq_getElem?] at hp
  intro before t after hsplit ht
  -- The nonterminal was there before the step, or it came with the right side. It cannot stand
  -- among the terminals at the end.
  rcases Word.split_of_replaced hsplit with ⟨rest, rfl, -⟩ | ⟨a, b, hright, rfl, -⟩ | ⟨rest, -, rfl⟩
  · exact hv before t (rest ++ s :: z) (by simp) ht
  · obtain ⟨items, hitems, -, hinitial⟩ := hv u s z rfl (Production.isNonterminal_of_lhs? hs)
    have hmem := hinitial id (Item.lhs?_eq_some_iff.2 ⟨p, hp, hs⟩)
    exact exists_reached?_of_right hitems hmem hp hright
  · have hterm := hz t (by simp)
    rw [Symbol.isNonterminal_of_isTerminal hterm] at ht
    simp at ht

theorem isTracked_of_derivesRightmost {ids : List ProductionId}
    (h : DerivesRightmost g.productions ids v w) (hv : IsTracked g v) : IsTracked g w := by
  induction h with
  | refl _ => exact hv
  | head hstep _ ih => exact ih (hv.yieldsRightmost hstep)

/-- A word that ends within a handle leads to the item with its dot there. -/
theorem IsHandle.exists_reached? {id : ProductionId} {p : Production} {before after a b : Word}
    (h : IsHandle g id p before after) (hright : p.right = a ++ b) :
    ∃ items, ItemSet.reached? g (before ++ a) = some items ∧ ⟨id, a.length⟩ ∈ items := by
  obtain ⟨hp, -, s, ids, hs, hder⟩ := h
  obtain ⟨items, hitems, -, hinitial⟩ := isTracked_of_derivesRightmost hder (isTracked_start g)
    before s after rfl (Production.isNonterminal_of_lhs? hs)
  have hmem := hinitial id (Item.lhs?_eq_some_iff.2 ⟨p, hp, hs⟩)
  have htarget := ItemSet.exists_reached?_append hitems hmem hp (by rw [List.drop_zero, hright])
  rwa [Nat.zero_add] at htarget

/-- The left side of a handle leads somewhere too, where it stands instead of the handle. -/
theorem IsHandle.exists_reached?_lhs {id : ProductionId} {p : Production} {before after : Word}
    (h : IsHandle g id p before after) (hs : p.lhs? = some s) (hne : s ≠ .start) :
    ∃ items, ItemSet.reached? g (before ++ [s]) = some items := by
  obtain ⟨-, -, s', ids, hs', hder⟩ := h
  obtain rfl := Option.some.inj (hs'.symm.trans hs)
  obtain ⟨items, hitems, hnext, -⟩ := isTracked_of_derivesRightmost hder (isTracked_start g)
    before s' after rfl (Production.isNonterminal_of_lhs? hs)
  obtain ⟨i, hi, hnext⟩ := hnext.resolve_left hne
  obtain ⟨target, htarget, -⟩ := ItemSet.exists_goto?_of_mem hi hnext
  refine ⟨target, ?_⟩
  rw [ItemSet.reached?_concat, hitems, Option.bind_some, htarget]

theorem Item.IsValidFor.exists_reached? {i : Item} (h : i.IsValidFor g w) :
    ∃ items, ItemSet.reached? g w = some items ∧ i ∈ items := by
  obtain ⟨p, before, after, hhandle, hdot, rfl⟩ := h
  obtain ⟨items, hitems, hmem⟩ :=
    hhandle.exists_reached? (List.take_append_drop i.dot p.right).symm
  rw [List.length_take, Nat.min_eq_left hdot] at hmem
  exact ⟨items, hitems, hmem⟩

theorem IsViablePrefix.exists_reached? (h : IsViablePrefix g w) :
    ∃ items, ItemSet.reached? g w = some items := by
  obtain ⟨id, p, before, after, hhandle, rest, hrest⟩ := h
  obtain ⟨items, hitems, -⟩ := hhandle.exists_reached? (List.append_nil p.right).symm
  rw [← hrest] at hitems
  exact ItemSet.exists_reached?_of_append hitems

/-! ## From items to derivations -/

theorem isValidFor_augmented (g : AugmentedGrammar) :
    Item.IsValidFor g ⟨g.augmented, 0⟩ [] := by
  refine ⟨g.augmentedProduction, [], [], ⟨?_, .nil, .start, [], rfl, .refl _⟩, Nat.zero_le _, rfl⟩
  simp [AugmentedGrammar.production?]

theorem Item.IsValidFor.advance {i : Item} (h : i.IsValidFor g w) (hx : i.next? g = some x) :
    i.advance.IsValidFor g (w ++ [x]) := by
  obtain ⟨p, before, after, hhandle, -, rfl⟩ := h
  obtain ⟨q, hq, hx⟩ := Item.next?_eq_some_iff.1 hx
  obtain rfl := Option.some.inj (hq.symm.trans hhandle.1)
  refine ⟨q, before, after, hhandle, (List.getElem?_eq_some_iff.1 hx).1, ?_⟩
  simp only [Item.advance]
  rw [List.take_add_one, hx, Option.toList_some, List.append_assoc]

/-- Whether every word that `S′` comes to by rightmost steps spells some word of terminals. -/
def AugmentedGrammar.IsProductive (g : AugmentedGrammar) : Prop :=
  ∀ ids v, DerivesRightmost g.productions ids [.start] v → ∃ w, Spells g.productions v w

/-- What comes after a part of the handle is spelled out, which leaves only terminals there. -/
theorem IsHandle.exists_derivesRightmost {id : ProductionId} {p : Production}
    {before after a b : Word} (hg : g.IsProductive) (h : IsHandle g id p before after)
    (hright : p.right = a ++ b) : ∃ z ids, Word.IsTerminal z ∧ ids ≠ [] ∧
      DerivesRightmost g.productions ids [.start] (before ++ a ++ z) := by
  obtain ⟨ids, hids⟩ := h.derivesRightmost
  have hafter := h.2.1
  have hword : before ++ p.right ++ after = before ++ a ++ b ++ after := by
    rw [hright, List.append_assoc before a]
  rw [hword] at hids
  obtain ⟨y, hy⟩ := hg _ _ hids
  obtain ⟨y, -, -, hy, -⟩ := hy.exists_of_append
  obtain ⟨-, rest, -, -, hrest⟩ := hy.exists_of_append
  obtain ⟨ids', hids'⟩ := hrest.exists_derivesRightmost
  have hder := hids.trans (hids'.context (before ++ a) hafter)
  rw [List.append_assoc _ rest] at hder
  exact ⟨rest ++ after, _, Word.isTerminal_append_iff.2 ⟨hrest.isTerminal, hafter⟩, by simp, hder⟩

/-- Where only terminals come after the predicted nonterminal, it is the last one of the word. -/
theorem Item.IsValidFor.of_mem_predictions {i j : Item} (hg : g.IsProductive)
    (h : i.IsValidFor g w) (hj : j ∈ i.predictions g) : j.IsValidFor g w := by
  obtain ⟨p, before, after, hhandle, -, rfl⟩ := h
  obtain ⟨hdot, s, hs, hlhs⟩ := Item.mem_predictions_iff.1 hj
  obtain ⟨q, hq, hs⟩ := Item.next?_eq_some_iff.1 hs
  obtain rfl := Option.some.inj (hq.symm.trans hhandle.1)
  obtain ⟨r, hr, hlhs⟩ := Item.lhs?_eq_some_iff.1 hlhs
  obtain ⟨hlt, hget⟩ := List.getElem?_eq_some_iff.1 hs
  have hright : q.right = q.right.take i.dot ++ [s] ++ q.right.drop (i.dot + 1) := by
    rw [← hget, List.append_assoc, List.singleton_append, List.getElem_cons_drop,
      List.take_append_drop]
  obtain ⟨z, ids, hz, -, hder⟩ := hhandle.exists_derivesRightmost hg hright
  refine ⟨r, before ++ q.right.take i.dot, z, ⟨hr, hz, s, ids, hlhs, ?_⟩, ?_, ?_⟩
  · simpa using hder
  · rw [hdot]
    exact Nat.zero_le _
  · rw [hdot, List.take_zero, List.append_nil]

theorem Item.IsValidFor.of_leads {i j : Item} (hg : g.IsProductive) (h : i.IsValidFor g w)
    (hj : Item.Leads g i j) : j.IsValidFor g w := by
  induction hj with
  | refl => exact h
  | tail _ hj ih => exact ih.of_mem_predictions hg hj

/-- The word is read backwards: its last symbol moved the dots that are not in front. -/
theorem isValidFor_of_mem_reached? {i : Item} (hg : g.IsProductive)
    (hw : ItemSet.reached? g w = some items) (hi : i ∈ items) : i.IsValidFor g w := by
  induction w using List.reverseRecOn generalizing items i with
  | nil =>
    obtain rfl := Option.some.inj (hw.symm.trans (ItemSet.reached?_nil g))
    obtain ⟨j, hj, hleads⟩ := ItemSet.mem_closure_iff.1 hi
    obtain rfl : ⟨g.augmented, 0⟩ = j := by simpa using hj
    exact (isValidFor_augmented g).of_leads hg hleads
  | append_singleton w x ih =>
    obtain ⟨before, hbefore, hgoto⟩ := ItemSet.exists_goto?_of_concat hw
    obtain ⟨j, hj, hx, hleads⟩ := (ItemSet.mem_of_goto?_eq_some_iff hgoto).1 hi
    exact ((ih hbefore hj).advance hx).of_leads hg hleads

/-! ## The production of `S′` left out -/

/-- No rule brings `S′` in, so only rules are used for a word without it. -/
theorem YieldsRightmost.of_productions {id : ProductionId}
    (h : YieldsRightmost g.productions id v w) (hv : .start ∉ v) :
    YieldsRightmost g.rules id v w ∧ .start ∉ w := by
  obtain ⟨p, hp, s, hs, before, after, hafter, rfl, rfl⟩ := h
  rw [← g.production?_eq_getElem?] at hp
  rcases AugmentedGrammar.production?_eq_some_iff.1 hp with ⟨-, rfl⟩ | hrule
  · obtain rfl := Option.some.inj (g.lhs?_augmentedProduction.symm.trans hs)
    simp at hv
  · refine ⟨⟨p, hrule, s, hs, before, after, hafter, rfl, rfl⟩, ?_⟩
    have hright : .start ∉ p.right :=
      fun hmem => Bool.noConfusion (AugmentedGrammar.isSentinel_of_mem_right hp hmem)
    simp_all

theorem DerivesRightmost.of_productions {ids : List ProductionId}
    (h : DerivesRightmost g.productions ids v w) (hv : .start ∉ v) :
    DerivesRightmost g.rules ids v w := by
  induction h with
  | refl w => exact .refl w
  | head hstep _ ih =>
    obtain ⟨hrule, hnone⟩ := hstep.of_productions hv
    exact .head hrule (ih hnone)

/-- The first step from `S′` comes to the start symbol, and rules make the others. -/
theorem DerivesRightmost.start_of_productions {ids : List ProductionId}
    (h : DerivesRightmost g.productions ids [.start] w) (hne : ids ≠ []) :
    ∃ ids', DerivesRightmost g.rules ids' [g.start] w := by
  cases h with
  | refl => exact absurd rfl hne
  | @head _ ids _ v _ hstep h =>
    obtain ⟨p, hp, s, hs, before, after, -, hsplit, rfl⟩ := hstep
    rw [← g.production?_eq_getElem?] at hp
    obtain ⟨rfl, rfl, rfl⟩ : before = [] ∧ after = [] ∧ s = .start := by
      have hlen := congrArg List.length hsplit
      simp only [List.length_append, List.length_cons, List.length_nil] at hlen
      obtain rfl := List.eq_nil_of_length_eq_zero (l := before) (by omega)
      obtain rfl := List.eq_nil_of_length_eq_zero (l := after) (by omega)
      simpa [eq_comm] using hsplit
    rcases AugmentedGrammar.production?_eq_some_iff.1 hp with ⟨-, rfl⟩ | hrule
    · refine ⟨ids, of_productions h ?_⟩
      obtain ⟨name, hname⟩ := g.start_eq
      show Symbol.start ∉ [g.start]
      simp [hname]
    · obtain ⟨name, hname⟩ := AugmentedGrammar.lhs?_of_mem_rules (List.mem_of_getElem? hrule)
      simp [hname] at hs

/-- A word with a valid item begins a word derived from the start symbol, and only terminals come
    after it there. -/
theorem Item.IsValidFor.exists_derivesRightmost {i : Item} (hg : g.IsProductive)
    (h : i.IsValidFor g w) :
    ∃ z ids, Word.IsTerminal z ∧ DerivesRightmost g.rules ids [g.start] (w ++ z) := by
  obtain ⟨p, before, after, hhandle, -, rfl⟩ := h
  obtain ⟨z, ids, hz, hne, hids⟩ :=
    hhandle.exists_derivesRightmost hg (List.take_append_drop i.dot p.right).symm
  obtain ⟨ids', hids'⟩ := hids.start_of_productions hne
  exact ⟨z, ids', hz, hids'⟩

namespace Grammar

/-- A word derived from the start symbol is spelled out symbol by symbol. -/
theorem IsProductiveFromStart.exists_spells {g : Grammar} (hg : g.IsProductiveFromStart)
    (hv : Derives g.productions [g.start] v) : ∃ w, Spells g.productions v w := by
  refine Spells.exists_of_forall_mem fun s hs => ?_
  rcases knows_of_derives_start hv s hs with hterm | hnon
  · exact ⟨[s], .terminal (g.sound.isTerminal s hterm) .nil⟩
  · obtain ⟨w, hw, hder⟩ := hg v hv s hs hnon
    exact ⟨w, .of_derives hder hw⟩

/-- The grammar stays productive when `S′ -> S` is added. -/
theorem IsProductiveFromStart.augmented {g : Grammar} (hg : g.IsProductiveFromStart)
    (h : g.IsContextFree) : (g.augmented h).IsProductive := by
  have hspells : ∀ v, Derives g.productions [g.start] v →
      ∃ w, Spells (g.augmented h).productions v w := by
    intro v hv
    obtain ⟨w, hw⟩ := hg.exists_spells hv
    exact ⟨w, .of_derives (hw.derives.append_productions _) hw.isTerminal⟩
  intro ids v hv
  by_cases hne : ids = []
  · subst hne
    cases hv
    obtain ⟨w, hw⟩ := hspells [g.start] .refl
    have hstep : Yields (g.augmented h).productions [.start] [g.start] :=
      ⟨(g.augmented h).augmentedProduction, by simp [AugmentedGrammar.productions], .start, rfl, [],
        [], rfl, rfl⟩
    exact ⟨w, hw.of_yields hstep⟩
  · obtain ⟨ids', hids'⟩ := hv.start_of_productions hne
    exact hspells v hids'.derives

theorem IsProductive.augmented {g : Grammar} (hg : g.IsProductive) (h : g.IsContextFree) :
    (g.augmented h).IsProductive :=
  hg.fromStart.augmented h

end Grammar

/-! ## The automaton -/

namespace Automaton

/-- Whether the word leads from the initial state to a state with the item. -/
def HoldsAfter (a : Automaton) (w : Word) (i : Item) : Prop :=
  ∃ id st, a.path? initial w = some id ∧ a.state? id = some st ∧ i ∈ st.items

theorem holdsAfter_iff {i : Item} : (ofGrammar g).HoldsAfter w i ↔
    ∃ items, ItemSet.reached? g w = some items ∧ i ∈ items := by
  refine ⟨?_, ?_⟩
  · intro h
    obtain ⟨id, st, hid, hst, hi⟩ := h
    obtain ⟨items, hitems, hreached⟩ := reached?_of_path? hid
    rw [items?, hst, Option.map_some, Option.some.injEq] at hitems
    exact ⟨items, hreached, hitems ▸ hi⟩
  · intro h
    obtain ⟨items, hreached, hi⟩ := h
    obtain ⟨id, hid, hitems⟩ := path?_of_reached? hreached
    obtain ⟨st, hst, rfl⟩ := Option.map_eq_some_iff.1 hitems
    exact ⟨id, st, hid, hst, hi⟩

theorem isSome_path?_iff : ((ofGrammar g).path? initial w).isSome = true ↔
    ∃ items, ItemSet.reached? g w = some items := by
  rw [Option.isSome_iff_exists]
  refine ⟨?_, ?_⟩
  · intro h
    obtain ⟨id, hid⟩ := h
    obtain ⟨items, -, hreached⟩ := reached?_of_path? hid
    exact ⟨items, hreached⟩
  · intro h
    obtain ⟨items, hreached⟩ := h
    obtain ⟨id, hid, -⟩ := path?_of_reached? hreached
    exact ⟨id, hid⟩

/-- **A word leads to every item that is valid for it.** When every nonterminal derives some word of
    terminals it leads to no other item, and it leads somewhere exactly when it is a viable
    prefix. -/
theorem holdsAfter_isValidFor (g : Grammar) (h : g.IsContextFree) (w : Word) :
    (∀ i : Item, i.IsValidFor (g.augmented h) w →
      (ofGrammar (g.augmented h)).HoldsAfter w i) ∧
    (g.IsProductive →
      (∀ i : Item, (ofGrammar (g.augmented h)).HoldsAfter w i →
        i.IsValidFor (g.augmented h) w) ∧
      (((ofGrammar (g.augmented h)).path? initial w).isSome = true ↔
        IsViablePrefix (g.augmented h) w)) := by
  refine ⟨?_, ?_⟩
  · intro i hi
    exact holdsAfter_iff.2 hi.exists_reached?
  · intro hg
    have hvalid : ∀ i : Item, (ofGrammar (g.augmented h)).HoldsAfter w i →
        i.IsValidFor (g.augmented h) w := by
      intro i hi
      obtain ⟨items, hitems, hi⟩ := holdsAfter_iff.1 hi
      exact isValidFor_of_mem_reached? (hg.augmented h) hitems hi
    refine ⟨hvalid, ?_⟩
    rw [isSome_path?_iff]
    refine ⟨?_, IsViablePrefix.exists_reached?⟩
    rintro ⟨items, hitems⟩
    obtain ⟨i, hi⟩ := ItemSet.exists_mem_of_reached? hitems
    exact (hvalid i (holdsAfter_iff.2 ⟨items, hitems, hi⟩)).isViablePrefix

end Automaton

/-! ## Balanced words -/

namespace Grammar

/-- The words with as many `b` as there are `a` before them. -/
def brackets : Grammar where
  terminals := .ofList ([.terminal "a", .terminal "b"] : Word)
  nonterminals := .ofList ([.nonterminal "S"] : Word)
  productions := [
    ⟨[.nonterminal "S"], [.terminal "a", .nonterminal "S", .terminal "b"], .contextFree, by decide⟩,
    ⟨[.nonterminal "S"], [], .contextFree, by decide⟩]
  start := .nonterminal "S"
  sound := Parts.fault?_eq_none_iff.1 (by decide +kernel)
  distinct := by decide

theorem isContextFree_brackets : brackets.IsContextFree := by decide +kernel

theorem isProductive_brackets : brackets.IsProductive := by
  intro s hs
  obtain rfl : .nonterminal "S" = s := by simpa [brackets] using hs
  refine ⟨[], .nil, Relation.ReflTransGen.single ?_⟩
  exact ⟨brackets.productions[1], by simp, .nonterminal "S", rfl, [], [], rfl, rfl⟩

end Grammar

theorem Automaton.isViablePrefix_brackets :
    Grammar.brackets.IsProductive ∧
      IsViablePrefix (Grammar.brackets.augmented Grammar.isContextFree_brackets)
        [.terminal "a", .terminal "a", .nonterminal "S"] := by
  have htheorem := holdsAfter_isValidFor Grammar.brackets Grammar.isContextFree_brackets
    [.terminal "a", .terminal "a", .nonterminal "S"]
  have hpath := (htheorem.2 Grammar.isProductive_brackets).2
  exact ⟨Grammar.isProductive_brackets, hpath.1 (by decide +kernel)⟩

end ShiftReduce
