import Mathlib.Order.Bounds.Basic
import ShiftReduce.Proofs.Follow.Least

set_option autoImplicit false

/-! # Refining tells the truth and converges

Whenever a symbol is added to a set, the flag remembers whether the set had it already, in the
direct pass as well as along the edges. Sets never lose a member, so at the end the flag tells
whether some set has more members than the table that was to be refined. A refined table meets the
inclusions and has a key for every nonterminal that they are about, so there is nothing to be added
to it, not even an empty entry.

**`FollowTable.grew_refine_iff`**: refining says that a set has grown exactly when one has.
**`FollowTable.refine_eq_self`**: a table that meets the inclusions stays as it is.
**`FollowTable.isLeastSolution`**: computed and refined tables are the least families that meet the
inclusions. -/

namespace ShiftReduce

variable {ps : List Production} {first : FirstTable} {t : FollowTable}

/-! ## The flag -/

/-- Whether some set of the family has a member that it lacks in the other family. -/
def Family.Outgrows (F base : Family) : Prop :=
  ∃ k, ∃ x ∈ F.entry k, x ∉ base.entry k

/-- Whether the flag tells what has become of the family that all began with: nothing was lost, and
    the flag is set if something was won. -/
structure Tells (base F : Family) (grew : Bool) : Prop where
  within : base.Within F
  grew_iff : grew = true ↔ F.Outgrows base

theorem tells_self (F : Family) : Tells F F false := by
  refine ⟨fun _ _ hx => hx, ?_⟩
  simp [Family.Outgrows]

/-- What is new in the family is new in comparison with the one that it began with, too. -/
theorem Tells.add {base F : Family} {grew : Bool} (h : Tells base F grew) (k : Symbol)
    (xs : SymbolSet) : Tells base (F.add k xs) (grew || F.gains k xs) := by
  refine ⟨fun j x hx => Family.mem_entry_add.2 (Or.inl (h.within j x hx)), ?_⟩
  rw [Bool.or_eq_true, h.grew_iff, Family.gains_iff]
  refine ⟨?_, ?_⟩
  · intro hnew
    rcases hnew with ⟨j, x, hx, hbase⟩ | ⟨x, hx, hF⟩
    · exact ⟨j, x, Family.mem_entry_add.2 (Or.inl hx), hbase⟩
    · exact ⟨k, x, Family.mem_entry_add.2 (Or.inr ⟨rfl, hx⟩), fun hbase => hF (h.within k x hbase)⟩
  · intro hnew
    obtain ⟨j, x, hx, hbase⟩ := hnew
    rcases Family.mem_entry_add.1 hx with hold | ⟨rfl, hadded⟩
    · exact Or.inl ⟨j, x, hold, hbase⟩
    · by_cases hF : x ∈ F.entry k
      · exact Or.inl ⟨k, x, hF, hbase⟩
      · exact Or.inr ⟨x, hadded, hF⟩

namespace Growth

variable {base : Family} {g : Growth}

theorem tells_foldl_add (h : Tells base g.sets g.grew) (found : List (Symbol × Word)) :
    Tells base (found.foldl (fun g (b, rest) => g.add b (first.firstOf rest).terminals) g).sets
      (found.foldl (fun g (b, rest) => g.add b (first.firstOf rest).terminals) g).grew := by
  induction found generalizing g with
  | nil => exact h
  | cons o found ih => exact ih (h.add o.1 (first.firstOf o.2).terminals)

theorem tells_foldl_addProduction (h : Tells base g.sets g.grew) :
    Tells base (ps.foldl (addProduction first) g).sets (ps.foldl (addProduction first) g).grew := by
  induction ps generalizing g with
  | nil => exact h
  | cons p rest ih =>
    refine ih ?_
    unfold addProduction
    split
    · exact tells_foldl_add h _
    · exact h

end Growth

namespace Propagation

variable {base : Family} {edges : List (Symbol × Symbol)} {source : SymbolSet}
  {s s' : Propagation}

theorem grew_visit (source : SymbolSet) (s : Propagation) (v : Symbol) :
    (visit source s v).grew = (s.grew || s.sets.gains v source) := by
  unfold visit
  split
  · next hgain => simp [hgain]
  · next hgain => simp [hgain]

/-- Whether the flag was set before, or tells what has become of the family. -/
def FlagsGrowth (before : Bool) (base : Family) (s : Propagation) : Prop :=
  ∃ grew, Tells base s.sets grew ∧ s.grew = (before || grew)

theorem FlagsGrowth.foldl_visit {before : Bool} (h : s.FlagsGrowth before base)
    (todo : List Symbol) : (todo.foldl (visit source) s).FlagsGrowth before base := by
  induction todo generalizing s with
  | nil => exact h
  | cons v rest ih =>
    obtain ⟨grew, htells, hgrew⟩ := h
    refine ih ⟨grew || s.sets.gains v source, ?_, ?_⟩
    · rw [sets_visit]
      exact htells.add v source
    · rw [grew_visit, hgrew, Bool.or_assoc]

theorem FlagsGrowth.round {before : Bool} (h : s.FlagsGrowth before base)
    (hround : Round edges s s') : s'.FlagsGrowth before base := by
  obtain ⟨u, rest, order, -, -, rfl⟩ := hround
  exact FlagsGrowth.foldl_visit (s := { s with queue := rest, queued := s.queued.erase u }) h order

theorem tells_run (h : Tells base s.sets s.grew) :
    Tells base ((loop edges).run s).sets ((loop edges).run s).grew := by
  have hflags : s.FlagsGrowth false base := ⟨s.grew, h, rfl⟩
  obtain ⟨grew, htells, hgrew⟩ :=
    (loop edges).run_induction (fun _ _ hnext hs => FlagsGrowth.round hs (.of_next hnext)) hflags
  rw [Bool.false_or] at hgrew
  rwa [hgrew]

end Propagation

namespace FollowTable

/-- Both phases together: the direct pass and then the propagation. -/
theorem tells_refine (t : FollowTable) (ps : List Production) (first : FirstTable) :
    Tells t.sets (t.refine ps first).1.sets (t.refine ps first).2 :=
  Propagation.tells_run (Growth.tells_foldl_addProduction (tells_self t.sets))

theorem grew_refine_iff : (t.refine ps first).2 = true ↔
    ∃ k, ∃ x ∈ (t.refine ps first).1.family k, x ∉ t.family k :=
  (tells_refine t ps first).grew_iff

/-! ## Convergence -/

/-- Nothing is added where the inclusions are met, and no key where there is one for each
    nonterminal of a right side. -/
theorem refine_eq_self (ht : t.IsClosed first ps)
    (hkeys : ∀ p ∈ ps, p.lhs?.isSome = true → ∀ b ∈ p.right, b.isNonterminal = true → b ∈ t.sets) :
    t.refine ps first = (t, false) := by
  have hmem : ∀ k x, x ∈ (t.refine ps first).1.sets.entry k ↔ x ∈ t.sets.entry k := by
    intro k x
    refine ⟨?_, within_refine t ps first k x⟩
    intro hx
    exact mem_of_required ht.meetsInclusions (fun _ => subset_rfl) (mem_refine_iff.1 hx)
  have hsets : (t.refine ps first).1.sets = t.sets := by
    refine Family.ext_mem ?_ fun k _ x => hmem k x
    intro k
    rw [mem_sets_refine_iff, or_iff_left_iff_imp]
    rintro ⟨p, hp, hlhs, hk, hright⟩
    exact hkeys p hp hlhs k hright hk
  have hflag : (t.refine ps first).2 = false := by
    rw [← Bool.not_eq_true, grew_refine_iff]
    rintro ⟨k, x, hx, hnew⟩
    exact hnew ((hmem k x).1 hx)
  exact Prod.ext (congrArg FollowTable.mk hsets) hflag

theorem refine_refine (t : FollowTable) (ps : List Production) (first : FirstTable) :
    (t.refine ps first).1.refine ps first = ((t.refine ps first).1, false) := by
  refine refine_eq_self (isClosed_refine t ps first) ?_
  intro p hp hlhs b hb hnon
  exact mem_sets_refine_iff.2 (Or.inr ⟨p, hp, hlhs, hnon, hb⟩)

/-! ## Least solutions -/

theorem isLeast_refine (t : FollowTable) (ps : List Production) (first : FirstTable) :
    IsLeast {F | t.family ≤ F ∧ MeetsInclusions first ps F} (t.refine ps first).1.family := by
  refine ⟨⟨within_refine t ps first, (isClosed_refine t ps first).meetsInclusions⟩, ?_⟩
  rintro F ⟨hwithin, hF⟩ s x hx
  exact mem_of_required hF hwithin (mem_refine_iff.1 hx)

/-- The table that the computation starts with has `$` after the start symbol and nothing else. -/
theorem family_initial_le_iff {nonterminals : SymbolSet} {s : Symbol} {F : Symbol → Set Symbol} :
    (initial ps nonterminals s).family ≤ F ↔ .eof ∈ F s := by
  refine ⟨?_, ?_⟩
  · intro h
    exact h s (mem_entry_initial_iff.2 ⟨rfl, rfl⟩)
  · intro h k x hx
    obtain ⟨rfl, rfl⟩ := mem_entry_initial_iff.1 hx
    exact h

theorem mem_sets_ofProductions_iff {nonterminals : SymbolSet} {s k : Symbol} :
    k ∈ (ofProductions ps nonterminals s first).sets ↔
      k = s ∨ k.isNonterminal = true ∧ (k ∈ nonterminals ∨ ∃ p ∈ ps, k ∈ p.symbols) := by
  rw [ofProductions, mem_sets_refine_iff, mem_sets_initial_iff, or_iff_left_iff_imp]
  rintro ⟨p, hp, -, hk, hright⟩
  exact Or.inr ⟨hk, Or.inr ⟨p, hp, List.mem_append_right p.left hright⟩⟩

/-- **FOLLOW tables are least solutions**, whatever FIRST table they are computed with. A computed
    table has the keys that it should have, and its sets are the least that meet the inclusions and
    have `$` after the start symbol. Refining leads to the least solution above the given table and
    tells whether a set has grown, and refining once more changes nothing. -/
theorem isLeastSolution (ps : List Production) (first : FirstTable) :
    (∀ nonterminals s,
      (∀ k, k ∈ (ofProductions ps nonterminals s first).sets ↔
        k = s ∨ k.isNonterminal = true ∧ (k ∈ nonterminals ∨ ∃ p ∈ ps, k ∈ p.symbols)) ∧
      IsLeast {F | .eof ∈ F s ∧ MeetsInclusions first ps F}
        (ofProductions ps nonterminals s first).family) ∧
    (∀ t : FollowTable,
      (∀ k, k ∈ (t.refine ps first).1.sets ↔ k ∈ t.sets ∨
        ∃ p ∈ ps, p.lhs?.isSome = true ∧ k.isNonterminal = true ∧ k ∈ p.right) ∧
      IsLeast {F | t.family ≤ F ∧ MeetsInclusions first ps F} (t.refine ps first).1.family ∧
      ((t.refine ps first).2 = true ↔
        ∃ k, ∃ x ∈ (t.refine ps first).1.family k, x ∉ t.family k) ∧
      (t.refine ps first).1.refine ps first = ((t.refine ps first).1, false)) := by
  refine ⟨?_, ?_⟩
  · intro nonterminals s
    refine ⟨fun k => mem_sets_ofProductions_iff, ?_⟩
    have hleast := isLeast_refine (initial ps nonterminals s) ps first
    simp only [family_initial_le_iff] at hleast
    exact hleast
  · intro t
    exact ⟨fun k => mem_sets_refine_iff, isLeast_refine t ps first, grew_refine_iff,
      refine_refine t ps first⟩

end FollowTable

end ShiftReduce
