import Mathlib.Logic.Relation
import ShiftReduce.Grammar.Augmented

set_option autoImplicit false

/-! # Derivations

What a list of productions means: one nonterminal of a word may be replaced by a right side of its
own. Productions whose left side is not one nonterminal take no part. A rightmost derivation always
replaces the last nonterminal, and is told by the productions that it uses. -/

namespace ShiftReduce

/-- Whether the word is made of terminals only. -/
def Word.IsTerminal (w : Word) : Prop :=
  ∀ s ∈ w, s.isTerminal = true

/-- `w` is `v` with one nonterminal replaced by a right side of it. -/
def Yields (ps : List Production) (v w : Word) : Prop :=
  ∃ p ∈ ps, ∃ s, p.lhs? = some s ∧
    ∃ before after, v = before ++ s :: after ∧ w = before ++ p.right ++ after

/-- Any number of steps leads from one word to the other. -/
def Derives (ps : List Production) : Word → Word → Prop :=
  Relation.ReflTransGen (Yields ps)

/-- The last nonterminal of `v` replaced by the right side of the production `id` gives `w`. -/
def YieldsRightmost (ps : List Production) (id : ProductionId) (v w : Word) : Prop :=
  ∃ p, ps[id]? = some p ∧ ∃ s, p.lhs? = some s ∧ ∃ before after, Word.IsTerminal after ∧
    v = before ++ s :: after ∧ w = before ++ p.right ++ after

/-- A rightmost derivation with the productions that it uses, the first one first. -/
inductive DerivesRightmost (ps : List Production) : List ProductionId → Word → Word → Prop where
  | refl (w : Word) : DerivesRightmost ps [] w w
  | head {id : ProductionId} {ids : List ProductionId} {u v w : Word} :
    YieldsRightmost ps id u v → DerivesRightmost ps ids v w → DerivesRightmost ps (id :: ids) u w

theorem YieldsRightmost.yields {ps : List Production} {id : ProductionId} {v w : Word}
    (h : YieldsRightmost ps id v w) : Yields ps v w := by
  obtain ⟨p, hp, s, hs, before, after, -, hv, hw⟩ := h
  exact ⟨p, List.mem_of_getElem? hp, s, hs, before, after, hv, hw⟩

/-- A rightmost derivation is a derivation. -/
theorem DerivesRightmost.derives {ps : List Production} {ids : List ProductionId} {v w : Word}
    (h : DerivesRightmost ps ids v w) : Derives ps v w := by
  induction h with
  | refl w => exact .refl
  | head h _ ih => exact .head h.yields ih

/-- What a word derives it derives between other words, too. -/
theorem Derives.context {ps : List Production} {v w : Word} (h : Derives ps v w)
    (before after : Word) : Derives ps (before ++ v ++ after) (before ++ w ++ after) := by
  induction h with
  | refl => exact .refl
  | tail _ h ih =>
    obtain ⟨p, hp, s, hs, u, z, rfl, rfl⟩ := h
    exact ih.tail ⟨p, hp, s, hs, before ++ u, z ++ after, by simp, by simp⟩

theorem Derives.trans {ps : List Production} {u v w : Word} (h : Derives ps u v)
    (h' : Derives ps v w) : Derives ps u w :=
  Relation.ReflTransGen.trans h h'

/-- Words derive side by side what they derive alone. -/
theorem Derives.append {ps : List Production} {u v u' v' : Word} (h : Derives ps u u')
    (h' : Derives ps v v') : Derives ps (u ++ v) (u' ++ v') := by
  have hleft : Derives ps (u ++ v) (u' ++ v) := by
    simpa using h.context [] v
  have hright : Derives ps (u' ++ v) (u' ++ v') := by
    simpa using h'.context u' []
  exact hleft.trans hright

/-- A nonterminal derives each of its right sides. -/
theorem Derives.of_lhs? {ps : List Production} {p : Production} {s : Symbol} (hp : p ∈ ps)
    (hs : p.lhs? = some s) : Derives ps [s] p.right :=
  .single ⟨p, hp, s, hs, [], [], rfl, by simp⟩

/-- A symbol of a derived word was there before, or a right side has brought it in. -/
theorem Derives.mem_or_exists_mem_right {ps : List Production} {v w : Word} (h : Derives ps v w)
    {s : Symbol} (hs : s ∈ w) : s ∈ v ∨ ∃ p ∈ ps, s ∈ p.right := by
  induction h with
  | refl => exact Or.inl hs
  | tail _ hstep ih =>
    obtain ⟨p, hp, a, -, before, after, rfl, rfl⟩ := hstep
    rcases List.mem_append.1 hs with hs | hs
    · rcases List.mem_append.1 hs with hs | hs
      · exact ih (List.mem_append_left _ hs)
      · exact Or.inr ⟨p, hp, hs⟩
    · exact ih (List.mem_append_right _ (List.mem_cons_of_mem a hs))

namespace Grammar

/-- What a word over the alphabets derives is a word over them. -/
theorem knows_of_derives {g : Grammar} {v w : Word} (hv : ∀ s ∈ v, g.Knows s)
    (h : Derives g.productions v w) : ∀ s ∈ w, g.Knows s := by
  intro s hs
  rcases h.mem_or_exists_mem_right hs with hs | ⟨p, hp, hs⟩
  · exact hv s hs
  · exact g.sound.knows p hp s (List.mem_append_right p.left hs)

theorem knows_of_derives_start {g : Grammar} {w : Word} (h : Derives g.productions [g.start] w) :
    ∀ s ∈ w, g.Knows s := by
  refine knows_of_derives (fun s hs => ?_) h
  obtain rfl := List.mem_singleton.1 hs
  exact Or.inr g.sound.start_mem

/-- The terminals of a word derived from the start symbol are terminals of the grammar. -/
theorem mem_terminals_of_derives_start {g : Grammar} {w : Word} {s : Symbol}
    (h : Derives g.productions [g.start] w) (hs : s ∈ w) (hterminal : s.isTerminal = true) :
    s ∈ g.terminals := by
  refine (knows_of_derives_start h s hs).resolve_right ?_
  intro hnon
  obtain ⟨name, rfl, -⟩ := g.sound.isNonterminal s hnon
  simp [Symbol.isTerminal] at hterminal

/-- The words of terminals that the start symbol derives. -/
def Generates (g : Grammar) (w : Word) : Prop :=
  w.IsTerminal ∧ Derives g.productions [g.start] w

/-- Whether every nonterminal derives some word of terminals. -/
def IsProductive (g : Grammar) : Prop :=
  ∀ s ∈ g.nonterminals, ∃ w : Word, w.IsTerminal ∧ Derives g.productions [s] w

/-- The same where only nonterminals count that come up in words derived from the start symbol. -/
def IsProductiveFromStart (g : Grammar) : Prop :=
  ∀ v, Derives g.productions [g.start] v → ∀ s ∈ v, s ∈ g.nonterminals →
    ∃ w : Word, w.IsTerminal ∧ Derives g.productions [s] w

theorem IsProductive.fromStart {g : Grammar} (hg : g.IsProductive) : g.IsProductiveFromStart :=
  fun _ _ s _ hs => hg s hs

end Grammar

end ShiftReduce
