import Mathlib.Data.Prod.Lex
import Mathlib.Order.Bounds.Defs
import ShiftReduce.Proofs.Automaton.Entry

set_option autoImplicit false

/-! # The order in which states are found

States leave the queue in the order of their numbers, and the symbols that lead out of a state are
taken in the order of its items. So edges are taken up by the state they leave and then by the place
of their symbol, and a state that is new at an edge gets a number above those of all states that
earlier edges lead to. This holds at every moment of the exploration, for the edges taken up so far.

**`Numbered.step`**: taking up one more edge keeps the numbers in the order of discovery.
**`Automaton.isNumbered_ofGrammar`**: the automaton of a grammar is numbered in this order, and no
other order is possible. -/

namespace ShiftReduce

/-! ## First occurrences -/

/-- A value that is listed before another one comes from something before all that the other comes
    from. -/
theorem pairwise_eraseDups_filterMap {α β : Type} [BEq β] [LawfulBEq β] {r : α → α → Prop}
    {f : α → Option β} {l : List α} (h : l.Pairwise r) :
    (l.filterMap f).eraseDups.Pairwise fun x y =>
      ∃ a ∈ l, f a = some x ∧ ∀ b ∈ l, f b = some y → r a b := by
  induction l using List.reverseRecOn with
  | nil => exact List.Pairwise.nil
  | append_singleton l c ih =>
    obtain ⟨hl, -, hlast⟩ := List.pairwise_append.1 h
    have hbefore : ∀ a ∈ l, r a c := fun a ha => hlast a ha c (List.mem_singleton_self c)
    have hold := (ih hl).imp (S := fun x y =>
        ∃ a ∈ l ++ [c], f a = some x ∧ ∀ b ∈ l ++ [c], f b = some y → r a b) <| by
      intro x y hxy
      obtain ⟨a, ha, hx, hfirst⟩ := hxy
      refine ⟨a, List.mem_append_left [c] ha, hx, ?_⟩
      intro b hb hy
      rcases List.mem_append.1 hb with hb | hb
      · exact hfirst b hb hy
      · exact List.mem_singleton.1 hb ▸ hbefore a ha
    rw [List.filterMap_append, List.eraseDups_append, List.pairwise_append]
    refine ⟨hold, ?_, ?_⟩
    · cases hc : f c with
      | none => simp [hc, List.removeAll]
      | some y =>
        simp only [List.filterMap_cons, hc, List.filterMap_nil, List.removeAll, List.filter_cons]
        split <;> simp [List.eraseDups_cons]
    · intro x hx y hy
      rw [List.mem_eraseDups] at hx hy
      obtain ⟨a, ha, hax⟩ := List.mem_filterMap.1 hx
      simp only [List.removeAll, List.mem_filter, List.mem_filterMap, List.mem_singleton,
        List.elem_eq_mem, Bool.not_eq_true', decide_eq_false_iff_not] at hy
      refine ⟨a, List.mem_append_left [c] ha, hax, ?_⟩
      intro b hb hby
      rcases List.mem_append.1 hb with hb | hb
      · exact absurd ⟨b, hb, hby⟩ hy.2
      · exact List.mem_singleton.1 hb ▸ hbefore a ha

namespace ItemSet

variable {g : AugmentedGrammar}

/-- Whether the symbols after the dots of the items are listed, each where it first comes up when
    the items are gone through by production and dot. -/
structure IsListing (g : AugmentedGrammar) (items : ItemSet) (xs : List Symbol) : Prop where
  mem_iff : ∀ x, x ∈ xs ↔ ∃ i ∈ items, i.next? g = some x
  nodup : xs.Nodup
  pairwise : xs.Pairwise fun x y =>
    ∃ i ∈ items, i.next? g = some x ∧ ∀ j ∈ items, j.next? g = some y → compare i j = .lt

theorem isListing_nextSymbols (g : AugmentedGrammar) (items : ItemSet) :
    IsListing g items (items.nextSymbols g) := by
  have hpairwise : (items.nextSymbols g).Pairwise fun x y =>
      ∃ i ∈ items, i.next? g = some x ∧ ∀ j ∈ items, j.next? g = some y → compare i j = .lt := by
    simpa only [nextSymbols, Std.ExtTreeSet.mem_toList] using
      pairwise_eraseDups_filterMap (f := (·.next? g)) (Std.ExtTreeSet.ordered_toList (t := items))
  refine ⟨fun _ => mem_nextSymbols_iff, hpairwise.imp ?_, hpairwise⟩
  -- A symbol listed twice would come from an item before itself.
  rintro x _ ⟨i, hi, hx, hfirst⟩ rfl
  simpa [Item.compare_eq_lt_iff] using hfirst i hi hx

end ItemSet

/-! ## Turns -/

/-- When an edge is taken up: while a state is expanded, and there at the place of the symbol. -/
abbrev Turn := Nat ×ₗ Nat

namespace Turn

variable {g : AugmentedGrammar} {l : List ItemSet} {items target : ItemSet} {x : Symbol} {n k : Nat}

/-- The items that are found at a turn, when the states have the given ones. -/
def target? (g : AugmentedGrammar) (l : List ItemSet) (e : Turn) : Option ItemSet := do
  let items ← l[(ofLex e).1]?
  let x ← (items.nextSymbols g)[(ofLex e).2]?
  items.goto? g x

theorem target?_eq_some_iff {e : Turn} : e.target? g l = some target ↔
    ∃ items x, l[(ofLex e).1]? = some items ∧ (items.nextSymbols g)[(ofLex e).2]? = some x ∧
      items.goto? g x = some target := by
  simp only [target?, Option.bind_eq_bind, Option.bind_eq_some_iff, exists_and_left]

theorem lt_length_of_target? {e : Turn} (h : e.target? g l = some target) :
    (ofLex e).1 < l.length := by
  obtain ⟨items, x, hitems, -, -⟩ := target?_eq_some_iff.1 h
  exact (List.getElem?_eq_some_iff.1 hitems).1

/-- New states change nothing for the states before them. -/
theorem target?_append {e : Turn} (h : (ofLex e).1 < l.length) (l' : List ItemSet) :
    e.target? g (l ++ l') = e.target? g l := by
  rw [target?, List.getElem?_append_left h, target?]

theorem lt_succ_iff {e : Turn} : e < toLex (n, k + 1) ↔ e < toLex (n, k) ∨ e = toLex (n, k) := by
  rw [Prod.Lex.lt_iff, Prod.Lex.lt_iff, ← ofLex_inj, Prod.ext_iff]
  simp only [ofLex_toLex]
  omega

end Turn

/-- The states that have been found, given their items, when all edges before a turn have been taken
    up. These lead to states, and a state that is not the first was found by one of them: the edge
    leaves an earlier state, and the edges before it lead to earlier states. -/
structure Numbered (g : AugmentedGrammar) (bound : Turn) (l : List ItemSet) : Prop where
  mem : ∀ e < bound, ∀ target, e.target? g l = some target → target ∈ l
  exists_target? : ∀ (id : Nat) items, 0 < id → l[id]? = some items →
    ∃ e < bound, (ofLex e).1 < id ∧ e.target? g l = some items ∧
      ∀ e' < e, ∀ target, e'.target? g l = some target → target ∈ l.take id

namespace Numbered

variable {g : AugmentedGrammar} {l : List ItemSet} {items target : ItemSet} {x : Symbol}
  {n k : Nat} {bound bound' : Turn}

/-- Edges that lead to states which have been found may be taken up. -/
theorem extend (h : Numbered g bound l) (hle : bound ≤ bound')
    (hmem : ∀ e < bound', ¬e < bound → ∀ target, e.target? g l = some target → target ∈ l) :
    Numbered g bound' l := by
  constructor
  · intro e he target htarget
    by_cases hlt : e < bound
    · exact h.mem e hlt target htarget
    · exact hmem e he hlt target htarget
  · intro id items hpos hid
    obtain ⟨e, he, hrest⟩ := h.exists_target? id items hpos hid
    exact ⟨e, lt_of_lt_of_le he hle, hrest⟩

/-- An edge may be taken up by giving the next number to the state that it leads to. -/
theorem concat (h : Numbered g (toLex (n, k)) l)
    (htarget : Turn.target? g l (toLex (n, k)) = some target) :
    Numbered g (toLex (n, k + 1)) (l ++ [target]) := by
  have hn : n < l.length := Turn.lt_length_of_target? htarget
  have hsame : ∀ e : Turn, e ≤ toLex (n, k) → e.target? g (l ++ [target]) = e.target? g l :=
    fun e he => Turn.target?_append (lt_of_le_of_lt (Prod.Lex.monotone_fst e _ he) hn) [target]
  constructor
  · intro e he other hother
    rcases Turn.lt_succ_iff.1 he with he | rfl
    · rw [hsame e he.le] at hother
      exact List.mem_append_left _ (h.mem e he other hother)
    · rw [hsame _ le_rfl, htarget] at hother
      obtain rfl := Option.some.inj hother
      exact List.mem_concat_self
  · intro id items hpos hid
    rcases Nat.lt_or_ge id l.length with hlt | hge
    · rw [List.getElem?_append_left hlt] at hid
      obtain ⟨e, he, hsource, hitems, hfirst⟩ := h.exists_target? id items hpos hid
      refine ⟨e, Turn.lt_succ_iff.2 (Or.inl he), hsource, (hsame e he.le).trans hitems, ?_⟩
      intro e' he' other hother
      rw [hsame e' (he'.trans he).le] at hother
      rw [List.take_append_of_le_length hlt.le]
      exact hfirst e' he' other hother
    · -- The new state is found at this turn, and everything before led to old ones.
      have hlast := (List.getElem?_eq_some_iff.1 hid).1
      rw [List.length_append, List.length_singleton] at hlast
      obtain rfl : id = l.length := by omega
      rw [List.getElem?_concat_length] at hid
      obtain rfl := Option.some.inj hid
      refine ⟨toLex (n, k), Turn.lt_succ_iff.2 (Or.inr rfl), hn, (hsame _ le_rfl).trans htarget, ?_⟩
      intro e he other hother
      rw [hsame e he.le] at hother
      rw [List.take_left]
      exact h.mem e he other hother

/-- Taking up the symbol at place `k` in state `n`. -/
theorem step (h : Numbered g (toLex (n, k)) l) (hn : l[n]? = some items)
    (hk : (items.nextSymbols g)[k]? = some x) (hx : items.goto? g x = some target) :
    Numbered g (toLex (n, k + 1)) (if target ∈ l then l else l ++ [target]) := by
  have htarget : Turn.target? g l (toLex (n, k)) = some target :=
    Turn.target?_eq_some_iff.2 ⟨items, x, hn, hk, hx⟩
  split
  · next hmem =>
    refine h.extend (Turn.lt_succ_iff.2 (Or.inr rfl)).le ?_
    intro e he hnot other hother
    obtain rfl := (Turn.lt_succ_iff.1 he).resolve_left hnot
    obtain rfl := Option.some.inj (hother.symm.trans htarget)
    exact hmem
  · exact h.concat htarget

/-- A state whose symbols have all been taken up is done. -/
theorem succ (h : Numbered g (toLex (n, (items.nextSymbols g).length)) l)
    (hn : l[n]? = some items) : Numbered g (toLex (n + 1, 0)) l := by
  refine h.extend ?_ ?_
  · rw [Prod.Lex.le_iff]
    exact Or.inl (Nat.lt_succ_self n)
  · intro e he hnot target htarget
    obtain ⟨source, x, hsource, hx, -⟩ := Turn.target?_eq_some_iff.1 htarget
    have hplace := (List.getElem?_eq_some_iff.1 hx).1
    rw [Prod.Lex.lt_iff] at he hnot
    simp only [ofLex_toLex, not_or, not_and, not_lt] at he hnot
    have hid : (ofLex e).1 = n := by omega
    rw [hid, hn] at hsource
    obtain rfl := Option.some.inj hsource
    exact absurd hplace (Nat.not_lt.2 (hnot.2 hid))

end Numbered

/-! ## The exploration -/

namespace Exploration

variable {g : AugmentedGrammar} {s : Exploration} {items : ItemSet} {n : Nat} {done : List Symbol}

theorem map_items_intern (s : Exploration) (items : ItemSet) :
    (s.intern items).1.states.map State.items =
      if items ∈ s.states.map State.items then s.states.map State.items
      else s.states.map State.items ++ [items] := by
  have hnew : (State.find? s.states items).isNone = true ↔ items ∉ s.states.map State.items :=
    State.find?_isNone_iff
  unfold intern
  split
  · next id hfind =>
    rw [hfind] at hnew
    rw [if_pos (by simpa using hnew)]
  · next hfind =>
    rw [hfind] at hnew
    rw [if_neg (hnew.1 rfl), List.map_append]
    rfl

/-- The next number goes to the next state that is found, while state `n` is expanded. -/
theorem numbered_follow {x : Symbol}
    (h : Numbered g (toLex (n, done.length)) (s.states.map State.items))
    (hn : s.items? n = some items) (hx : (items.nextSymbols g)[done.length]? = some x) :
    Numbered g (toLex (n, done.length + 1)) ((follow g n items s x).states.map State.items) := by
  obtain ⟨i, hi, hnext⟩ := ItemSet.mem_nextSymbols_iff.1 (List.mem_of_getElem? hx)
  obtain ⟨target, hgoto, -⟩ := ItemSet.exists_goto?_of_mem hi hnext
  have hn : (s.states.map State.items)[n]? = some items := by
    rw [List.getElem?_map]
    exact hn
  simp only [follow, hgoto]
  rw [items_addEdge, map_items_intern]
  exact h.step hn hx hgoto

theorem numbered_foldl_follow {xs : List Symbol}
    (h : Numbered g (toLex (n, done.length)) (s.states.map State.items))
    (hn : s.items? n = some items) (hxs : items.nextSymbols g = done ++ xs) :
    Numbered g (toLex (n, (items.nextSymbols g).length))
      ((xs.foldl (follow g n items) s).states.map State.items) := by
  induction xs generalizing done s with
  | nil =>
    rw [hxs, List.append_nil]
    exact h
  | cons x rest ih =>
    have hx : (items.nextSymbols g)[done.length]? = some x := by simp [hxs]
    have hstep : Numbered g (toLex (n, (done ++ [x]).length))
        ((follow g n items s x).states.map State.items) := by
      rw [List.length_append]
      exact numbered_follow h hn hx
    exact ih hstep (items?_follow hn n items x) (by simp [hxs])

theorem numbered_next {t : Exploration} (harrived : Arrived g n s)
    (h : Numbered g (toLex (n, 0)) (s.states.map State.items)) (ht : s.next g = some t) :
    Numbered g (toLex (n + 1, 0)) (t.states.map State.items) := by
  obtain ⟨st, hst, rfl⟩ := harrived.exists_of_next ht
  let popped : Exploration := ⟨s.states, List.range' (n + 1) (s.states.length - (n + 1))⟩
  have hn : popped.items? n = some st.items := by rw [items?, hst, Option.map_some]
  have hfirst : Numbered g (toLex (n, ([] : List Symbol).length))
    (popped.states.map State.items) := h
  have hdone := numbered_foldl_follow hfirst hn (List.nil_append _).symm
  have hlast := items?_foldl_follow (g := g) hn n st.items (st.items.nextSymbols g)
  rw [items?, ← List.getElem?_map] at hlast
  exact hdone.succ hlast

theorem numbered_initial (g : AugmentedGrammar) :
    Numbered g (toLex (0, 0)) ((initial g).states.map State.items) := by
  constructor
  · intro e he
    rw [Prod.Lex.lt_iff] at he
    simp at he
  · intro id items hpos hid
    have hlt := (List.getElem?_eq_some_iff.1 hid).1
    simp only [initial, List.map_cons, List.map_nil, List.length_singleton] at hlt
    omega

theorem numbered_run (g : AugmentedGrammar) :
    ∃ bound, Numbered g bound (((loop g).run (initial g)).states.map State.items) := by
  have hrun := (loop g).run_induction
    (P := fun s => ∃ n, Arrived g n s ∧ Numbered g (toLex (n, 0)) (s.states.map State.items))
    (fun _ _ ht ⟨n, harrived, h⟩ => ⟨n + 1, harrived.next ht, numbered_next harrived h ht⟩)
    ⟨0, arrived_initial g, numbered_initial g⟩
  obtain ⟨n, -, h⟩ := hrun
  exact ⟨toLex (n, 0), h⟩

end Exploration

/-! ## The numbers of the states -/

namespace Automaton

variable {a b : Automaton} {e : Turn} {id target : StateId}

/-- An edge to the state is taken up at the turn. -/
def IsEdge (a : Automaton) (e : Turn) (target : StateId) : Prop :=
  ∃ items x, a.items? (ofLex e).1 = some items ∧
    (items.nextSymbols a.grammar)[(ofLex e).2]? = some x ∧ a.goto? (ofLex e).1 x = some target

/-- The edges out of a state are over the symbols after its dots, as they are listed. Every state
    but the initial one has a first turn with an edge to it, which leaves a state with a lower
    number, and the states have the order of their first turns. -/
structure IsNumbered (a : Automaton) : Prop where
  isListing : ∀ id items, a.items? id = some items →
    items.IsListing a.grammar (items.nextSymbols a.grammar)
  exists_goto?_iff : ∀ id items, a.items? id = some items → ∀ x,
    (∃ target, a.goto? id x = some target) ↔ x ∈ items.nextSymbols a.grammar
  exists_isLeast : ∀ id < a.size, id ≠ initial →
    ∃ e, IsLeast {e | a.IsEdge e id} e ∧ (ofLex e).1 < id
  lt_of_isLeast : ∀ id other, id < other → ∀ e e', IsLeast {e | a.IsEdge e id} e →
    IsLeast {e | a.IsEdge e other} e' → e < e'

/-- There is an edge to a state with a higher number. -/
def Ascends (a : Automaton) (source target : StateId) : Prop :=
  source < target ∧ ∃ x, a.goto? source x = some target

theorem IsGotoGraph.isEdge_iff (ha : a.IsGotoGraph) : a.IsEdge e target ↔
    ∃ items, e.target? a.grammar (a.states.map State.items) = some items ∧
      a.items? target = some items := by
  simp only [Turn.target?_eq_some_iff, List.getElem?_map]
  constructor
  · rintro ⟨before, x, hbefore, hx, hedge⟩
    obtain ⟨items, hgoto, hitems⟩ := (ha.goto?_eq_some_iff hbefore).1 hedge
    exact ⟨items, ⟨before, x, hbefore, hx, hgoto⟩, hitems⟩
  · rintro ⟨items, ⟨before, x, hbefore, hx, hgoto⟩, hitems⟩
    exact ⟨before, x, hbefore, hx, (ha.goto?_eq_some_iff hbefore).2 ⟨items, hgoto, hitems⟩⟩

/-- At a turn there is one edge at most. -/
theorem IsEdge.unique {other : StateId} (h : a.IsEdge e target) (hother : a.IsEdge e other) :
    target = other := by
  obtain ⟨items, x, hitems, hx, hedge⟩ := h
  obtain ⟨items', x', hitems', hx', hedge'⟩ := hother
  obtain rfl := Option.some.inj (hitems.symm.trans hitems')
  obtain rfl := Option.some.inj (hx.symm.trans hx')
  exact Option.some.inj (hedge.symm.trans hedge')

/-- At the turn at which a state was found, edges had led to states with lower numbers only. -/
theorem IsGotoGraph.exists_first (ha : a.IsGotoGraph) {bound : Turn}
    (h : Numbered a.grammar bound (a.states.map State.items)) (hid : id < a.size)
    (hne : id ≠ Automaton.initial) :
    ∃ e, (ofLex e).1 < id ∧ a.IsEdge e id ∧ ∀ e' < e, ∀ other, a.IsEdge e' other → other < id := by
  obtain ⟨items, hitems⟩ := exists_items?_of_lt hid
  have hget : (a.states.map State.items)[id]? = some items := by
    rw [List.getElem?_map]
    exact hitems
  obtain ⟨e, -, hsource, htarget, hfirst⟩ :=
    h.exists_target? id items (Nat.pos_of_ne_zero hne) hget
  refine ⟨e, hsource, ha.isEdge_iff.2 ⟨items, htarget, hitems⟩, ?_⟩
  intro e' he' other hother
  obtain ⟨found, hfound, hitems'⟩ := ha.isEdge_iff.1 hother
  obtain ⟨place, hplace⟩ := List.getElem?_of_mem (hfirst e' he' found hfound)
  rw [List.getElem?_take] at hplace
  split at hplace
  · next hlt =>
    rw [List.getElem?_map] at hplace
    obtain rfl := ha.inj other place found hitems' hplace
    exact hlt
  · nomatch hplace

theorem IsGotoGraph.isNumbered (ha : a.IsGotoGraph) {bound : Turn}
    (h : Numbered a.grammar bound (a.states.map State.items)) : a.IsNumbered where
  isListing _ items _ := ItemSet.isListing_nextSymbols a.grammar items
  exists_goto?_iff id items hid x := by
    rw [← Option.ne_none_iff_exists', ne_eq, ha.goto?_eq_none_iff hid, ItemSet.goto?_eq_none_iff,
      ItemSet.mem_nextSymbols_iff]
    simp
  exists_isLeast id hid hne := by
    obtain ⟨e, hsource, hedge, hfirst⟩ := ha.exists_first h hid hne
    refine ⟨e, ⟨hedge, ?_⟩, hsource⟩
    intro e' he'
    by_contra hlt
    exact Nat.lt_irrefl id (hfirst e' (not_le.1 hlt) id he')
  lt_of_isLeast id other hlt e e' he he' := by
    have hne : id ≠ Automaton.initial := by
      rintro rfl
      obtain ⟨items, x, -, -, hgoto⟩ := he.1
      exact ha.goto?_ne_initial _ x hgoto
    obtain ⟨items, -, hid⟩ := ha.isEdge_iff.1 he.1
    obtain ⟨first, -, hedge, hfirst⟩ := ha.exists_first h (lt_size_of_items? hid) hne
    have hle : e ≤ e' := by
      by_contra hnot
      have hbefore : e' < first := lt_of_lt_of_le (not_le.1 hnot) (he.2 hedge)
      exact Nat.lt_asymm hlt (hfirst e' hbefore other he'.1)
    refine lt_of_le_of_ne hle ?_
    rintro rfl
    exact absurd (he.1.unique he'.1) (Nat.ne_of_lt hlt)

/-- No edge to a later state is taken up before the first edge to a state. -/
theorem IsNumbered.lt_of_isEdge {other : StateId} {e' : Turn} (h : a.IsNumbered)
    (he : IsLeast {e | a.IsEdge e id} e) (hlt : id < other) (hedge : a.IsEdge e' other)
    (hother : other < a.size) : e < e' := by
  obtain ⟨first, hfirst, -⟩ :=
    h.exists_isLeast other hother (Nat.ne_of_gt (Nat.lt_of_le_of_lt (Nat.zero_le id) hlt))
  exact lt_of_lt_of_le (h.lt_of_isLeast id other hlt e first he hfirst) (hfirst.2 hedge)

/-- Every state is reached from the initial one over states with lower numbers. -/
theorem IsNumbered.reflTransGen (h : a.IsNumbered) (hid : id < a.size) :
    Relation.ReflTransGen a.Ascends initial id := by
  induction id using Nat.strong_induction_on with
  | _ id ih =>
    by_cases hne : id = initial
    · rw [hne]
    · obtain ⟨e, ⟨hedge, -⟩, hsource⟩ := h.exists_isLeast id hid hne
      obtain ⟨items, x, -, -, hgoto⟩ := hedge
      exact (ih _ hsource (Nat.lt_trans hsource hid)).tail ⟨hsource, x, hgoto⟩

/-! ## No other choice -/

section Unique

variable (ha : a.IsGotoGraph) (hb : b.IsGotoGraph) (hg : b.grammar = a.grammar)

include ha hb hg

/-- When both have the same states before one of them, a turn at which the first automaton finds it
    finds the same items in the second one, and under no lower number. -/
theorem IsEdge.exists_ge (he : a.IsEdge e id) (hsource : (ofLex e).1 < id)
    (hbefore : ∀ other < id, a.items? other = b.items? other) :
    ∃ target, b.IsEdge e target ∧ b.items? target = a.items? id ∧ id ≤ target := by
  obtain ⟨before, x, hitems, hx, hedge⟩ := he
  obtain ⟨items, hgoto, hid⟩ := (ha.goto?_eq_some_iff hitems).1 hedge
  rw [← hg] at hx hgoto
  rw [hbefore _ hsource] at hitems
  have hfound := hb.items?_goto? _ before hitems x
  rw [hgoto, Option.map_some, Option.map_eq_some_iff] at hfound
  obtain ⟨target, htarget, hfound⟩ := hfound
  refine ⟨target, ⟨before, x, hitems, hx, htarget⟩, hfound.trans hid.symm, ?_⟩
  by_contra hlt
  have hold : a.items? target = some items := by
    rw [hbefore target (Nat.not_le.1 hlt), hfound]
  exact hlt (Nat.le_of_eq (ha.inj id target items hid hold))

/-- When both have the same states before a number, they have the same state with it. -/
theorem IsNumbered.items?_of_forall_lt {items : ItemSet} (hna : a.IsNumbered) (hnb : b.IsNumbered)
    (hbefore : ∀ other < id, a.items? other = b.items? other) (hid : a.items? id = some items) :
    b.items? id = some items := by
  by_cases hne : id = initial
  · rw [hne] at hid ⊢
    rw [hb.initial, hg, ← ha.initial, hid]
  obtain ⟨e, he, hsource⟩ := hna.exists_isLeast id (lt_size_of_items? hid) hne
  obtain ⟨target, hedge, htarget, hle⟩ := he.1.exists_ge ha hb hg hsource hbefore
  rw [hid] at htarget
  rcases Nat.eq_or_lt_of_le hle with rfl | hlt
  · exact htarget
  -- Otherwise the second automaton finds another state before, and so would the first one.
  exfalso
  have hsize := lt_size_of_items? htarget
  obtain ⟨e', he', hsource'⟩ := hnb.exists_isLeast id (Nat.lt_trans hlt hsize) hne
  have hearlier : e' < e := hnb.lt_of_isEdge he' hlt hedge hsize
  obtain ⟨found, hedge', hfound, hle'⟩ :=
    he'.1.exists_ge hb ha hg.symm hsource' fun other h => (hbefore other h).symm
  rcases Nat.eq_or_lt_of_le hle' with rfl | hlt'
  · exact absurd (he.2 hedge') (not_le.2 hearlier)
  · obtain ⟨items', hitems'⟩ := exists_items?_of_lt (Nat.lt_trans hlt hsize)
    have hlater := hna.lt_of_isEdge he hlt' hedge' (lt_size_of_items? (hfound.trans hitems'))
    exact lt_asymm hlater hearlier

theorem IsNumbered.items?_eq (hna : a.IsNumbered) (hnb : b.IsNumbered) : a.items? = b.items? := by
  funext id
  induction id using Nat.strong_induction_on with
  | _ id ih =>
    refine Option.ext fun items => ⟨?_, ?_⟩
    · exact hna.items?_of_forall_lt ha hb hg hnb ih
    · exact hnb.items?_of_forall_lt hb ha hg.symm hna fun other h => (ih other h).symm

/-- Automata that are numbered by discovery are the same when their grammars are. -/
theorem IsNumbered.goto?_eq (hna : a.IsNumbered) (hnb : b.IsNumbered) : a.goto? = b.goto? := by
  have hitems := hna.items?_eq ha hb hg hnb
  funext id x
  cases hid : a.items? id with
  | none => rw [goto?_of_items?_eq_none hid, goto?_of_items?_eq_none (hitems ▸ hid)]
  | some items =>
    refine Option.ext fun target => ?_
    rw [ha.goto?_eq_some_iff hid, hb.goto?_eq_some_iff (hitems ▸ hid), hg, hitems]

end Unique

/-- **States are numbered in the order of their discovery.** This order is fixed by the rules and
    the start symbol, and every state is reached over states with lower numbers. -/
theorem isNumbered_ofGrammar (g : AugmentedGrammar) :
    (ofGrammar g).IsNumbered ∧
      (∀ a : Automaton, a.grammar.rules = g.rules → a.grammar.start = g.start → a.IsGotoGraph →
        a.IsNumbered → a.items? = (ofGrammar g).items? ∧ a.goto? = (ofGrammar g).goto?) ∧
      ∀ id < (ofGrammar g).size, Relation.ReflTransGen (ofGrammar g).Ascends initial id := by
  have hgraph := isGotoGraph_ofGrammar g
  obtain ⟨bound, hbound⟩ := Exploration.numbered_run g
  have hnumbered : (ofGrammar g).IsNumbered := hgraph.isNumbered hbound
  refine ⟨hnumbered, ?_, fun id hid => hnumbered.reflTransGen hid⟩
  intro a hrules hstart ha hna
  have hg : (ofGrammar g).grammar = a.grammar :=
    AugmentedGrammar.eq_of_rules_eq hrules.symm hstart.symm
  exact ⟨hna.items?_eq ha hgraph hg hnumbered, hna.goto?_eq ha hgraph hg hnumbered⟩

end Automaton

end ShiftReduce
