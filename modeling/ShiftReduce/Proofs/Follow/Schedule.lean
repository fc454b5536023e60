import Mathlib.Logic.Relation
import Mathlib.Order.WellFounded
import ShiftReduce.Proofs.Follow.Refinement

set_option autoImplicit false

/-! # The order of visits does not matter

The worklist visits the edges out of one symbol after the other, and neither the order of the symbols
in the queue nor the order of the edges out of a symbol is anything that the result depends on. Every
round makes the worklist smaller whatever the order, so no schedule goes on for ever. When nothing
waits any more, a set has what it had and what the sets had from which edges lead to it: nothing else
is ever handed on, and all of this is, since edges that are not settled start at symbols that wait.

**`Propagation.size_round`**: every round makes the worklist smaller.
**`Propagation.IsConsistent.round`**: the queue and its membership set agree after every round.
**`Propagation.isScheduleFree`**: all runs end, with sets that the edges determine. -/

namespace ShiftReduce

namespace Propagation

variable {edges : List (Symbol × Symbol)} {source : SymbolSet} {F : Family} {queue : List Symbol}
  {s t : Propagation} {u v x : Symbol} {grew : Bool}

/-- Whether some number of rounds leads from the one state of the worklist to the other, whatever
    the order of the visits in each of them. -/
def Reaches (edges : List (Symbol × Symbol)) : Propagation → Propagation → Prop :=
  Relation.ReflTransGen (Round edges)

/-! ## Termination -/

theorem size_round (h : Round edges s t) : size edges t < size edges s := by
  obtain ⟨u, rest, order, hq, horder, rfl⟩ := h
  refine Nat.lt_of_le_of_lt (size_foldl_visit_le ?_ _ ?_) ?_
  · intro v hv
    exact List.mem_map.2 ⟨(u, v), (horder v).1 hv, rfl⟩
  · exact fun x hx => Family.mem_members.2 ⟨u, hx⟩
  · simp [size, hq]

theorem wellFounded_round (edges : List (Symbol × Symbol)) :
    WellFounded fun t s => Round edges s t :=
  Subrelation.wf size_round (measure (size edges)).wf

/-- There is a next round as long as a symbol waits. -/
theorem exists_round_iff : (∃ t, Round edges s t) ↔ s.queue ≠ [] := by
  constructor
  · rintro ⟨t, u, rest, order, hq, -, -⟩
    simp [hq]
  · intro hq
    obtain ⟨u, rest, hq⟩ := List.exists_cons_of_ne_nil hq
    exact ⟨_, u, rest, targets edges u, hq, fun v => mem_targets_iff, rfl⟩

/-! ## The queue -/

/-- Whether the symbols that count as waiting are those in the queue, each of them there once. -/
structure IsConsistent (s : Propagation) : Prop where
  mem_queued_iff : ∀ w, w ∈ s.queued ↔ w ∈ s.queue
  nodup : s.queue.Nodup

theorem isConsistent_start (h : queue.Nodup) : (start F queue grew).IsConsistent :=
  ⟨fun w => by simp [start], h⟩

theorem IsConsistent.visit (h : s.IsConsistent) : (visit source s v).IsConsistent := by
  unfold Propagation.visit
  split
  · by_cases hv : v ∈ s.queued
    · refine ⟨fun w => ?_, by simpa [hv] using h.nodup⟩
      simp only [hv, if_true, Std.ExtTreeSet.mem_insert, Std.LawfulEqCmp.compare_eq_iff_eq,
        h.mem_queued_iff, or_iff_right_iff_imp]
      rintro rfl
      exact (h.mem_queued_iff v).1 hv
    · have hnew : v ∉ s.queue := fun hmem => hv ((h.mem_queued_iff v).2 hmem)
      refine ⟨fun w => ?_, ?_⟩
      · simp only [hv, if_false, Std.ExtTreeSet.mem_insert, Std.LawfulEqCmp.compare_eq_iff_eq,
          h.mem_queued_iff, List.mem_append, List.mem_singleton]
        rw [or_comm, eq_comm]
      · rw [if_neg hv, List.nodup_append]
        refine ⟨h.nodup, by simp, fun a ha b hb hab => ?_⟩
        rw [hab, List.mem_singleton.1 hb] at ha
        exact hnew ha
  · exact ⟨h.mem_queued_iff, h.nodup⟩

theorem IsConsistent.foldl_visit (h : s.IsConsistent) (todo : List Symbol) :
    (todo.foldl (Propagation.visit source) s).IsConsistent := by
  induction todo generalizing s with
  | nil => exact h
  | cons v rest ih => exact ih h.visit

theorem IsConsistent.round (h : s.IsConsistent) (hround : Round edges s t) : t.IsConsistent := by
  obtain ⟨u, rest, order, hq, -, rfl⟩ := hround
  have hnodup := h.nodup
  rw [hq, List.nodup_cons] at hnodup
  refine IsConsistent.foldl_visit ⟨fun w => ?_, hnodup.2⟩ order
  -- The symbol taken off the queue was there once, so it does not wait any more.
  simp only [Std.ExtTreeSet.mem_erase, ne_eq, Std.LawfulEqCmp.compare_eq_iff_eq, h.mem_queued_iff,
    hq, List.mem_cons]
  constructor
  · rintro ⟨hne, rfl | hw⟩
    · exact absurd rfl hne
    · exact hw
  · intro hw
    exact ⟨fun huw => hnodup.1 (huw ▸ hw), Or.inr hw⟩

/-! ## What runs keep -/

/-- What every round keeps, every run keeps. -/
theorem Reaches.keeps {P : Propagation → Prop} (keep : ∀ s t, Round edges s t → P s → P t)
    (h : Reaches edges s t) (hs : P s) : P t := by
  induction h with
  | refl => exact hs
  | tail _ hround ih => exact keep _ _ hround ih

theorem Reaches.isConsistent (h : Reaches edges s t) (hs : s.IsConsistent) : t.IsConsistent :=
  h.keeps (fun _ _ hround hs => hs.round hround) hs

theorem Reaches.sound (h : Reaches edges s t) (hs : s.Sound edges) : t.Sound edges :=
  h.keeps (fun _ _ hround hs => hs.round hround) hs

theorem Reaches.flagsGrowth {before : Bool} {base : Family} (h : Reaches edges s t)
    (hs : s.FlagsGrowth before base) : t.FlagsGrowth before base :=
  h.keeps (fun _ _ hround hs => hs.round hround) hs

/-- Whether edges lead from the one symbol to the other. -/
def LeadsTo (edges : List (Symbol × Symbol)) : Symbol → Symbol → Prop :=
  Relation.ReflTransGen fun a b => (a, b) ∈ edges

/-- What is in a set was in one from which edges lead to it. -/
theorem Reaches.exists_leadsTo (h : Reaches edges s t) :
    ∀ v, ∀ x ∈ t.sets.entry v, ∃ u, LeadsTo edges u v ∧ x ∈ s.sets.entry u := by
  refine h.keeps (P := fun t => ∀ v, ∀ x ∈ t.sets.entry v,
    ∃ u, LeadsTo edges u v ∧ x ∈ s.sets.entry u) ?_ fun v x hx => ⟨v, .refl, hx⟩
  intro r t hround hr
  refine Round.induction (P := fun F => ∀ v, ∀ x ∈ F.entry v,
    ∃ u, LeadsTo edges u v ∧ x ∈ s.sets.entry u) ?_ hround hr
  intro F a b xs hab hxs hF v x hx
  rcases Family.mem_entry_add.1 hx with hold | ⟨rfl, hnew⟩
  · exact hF v x hold
  · obtain ⟨u, hua, hu⟩ := hF a x (hxs x hnew)
    exact ⟨u, hua.tail hab, hu⟩

/-- A symbol from which an edge leads to a set that lacks a member waits. -/
theorem Sound.mem_queue (h : s.Sound edges) (huv : (u, v) ∈ edges) (hx : x ∈ s.sets.entry u)
    (hlacks : x ∉ s.sets.entry v) : u ∈ s.queue := by
  by_contra hwait
  exact hlacks (h.settled u v huv hwait x hx)

/-- Members are handed on along all edges when nothing waits. -/
theorem Sound.mem_of_leadsTo (h : s.Sound edges) (hqueue : s.queue = []) (huv : LeadsTo edges u v)
    (hx : x ∈ s.sets.entry u) : x ∈ s.sets.entry v := by
  induction huv with
  | refl => exact hx
  | tail _ hstep ih => exact h.settled _ _ hstep (by simp [hqueue]) x ih

/-! ## Results -/

/-- Whether the sets are those of the family with what the sets have from which edges lead to them,
    and the flag tells whether one of them has got a new member, if it was not set before. -/
structure IsResult (edges : List (Symbol × Symbol)) (F : Family) (grew : Bool) (t : Propagation) :
    Prop where
  mem_entry_iff : ∀ v x, x ∈ t.sets.entry v ↔ ∃ u, LeadsTo edges u v ∧ x ∈ F.entry u
  grew_iff : t.grew = true ↔ grew = true ∨ t.sets.Outgrows F

theorem Reaches.isResult (h : Reaches edges (start F queue grew) t) (hkeys : ∀ k ∈ F, k ∈ queue)
    (hqueue : t.queue = []) : IsResult edges F grew t := by
  have hsound := h.sound (sound_start hkeys edges grew)
  obtain ⟨flag, htells, hflag⟩ :=
    h.flagsGrowth ⟨false, tells_self F, (Bool.or_false grew).symm⟩
  refine ⟨fun v x => ⟨h.exists_leadsTo v x, ?_⟩, ?_⟩
  · rintro ⟨u, huv, hx⟩
    exact hsound.mem_of_leadsTo hqueue huv (htells.within u x hx)
  · rw [hflag, Bool.or_eq_true, htells.grew_iff]

/-- The edges and the family determine the result. -/
theorem IsResult.unique (h : IsResult edges F grew s) (h' : IsResult edges F grew t) :
    s.sets.entry = t.sets.entry ∧ s.grew = t.grew := by
  have hentry : s.sets.entry = t.sets.entry := by
    funext k
    refine Std.ExtTreeSet.ext_mem fun x => ?_
    rw [h.mem_entry_iff, h'.mem_entry_iff]
  refine ⟨hentry, Bool.eq_iff_iff.2 ?_⟩
  rw [h.grew_iff, h'.grew_iff, Family.Outgrows, Family.Outgrows, hentry]

/-- Whether the propagation from a family is right in every order: no run goes on for ever, every one
    goes on until nothing waits, the queue and the edges agree with the sets all the time, and in the
    end the result is the same as that of any other run, such as the run of the loop. -/
structure IsScheduleFree (edges : List (Symbol × Symbol)) (F : Family) (queue : List Symbol)
    (grew : Bool) : Prop where
  wellFounded : WellFounded fun t s => Round edges s t
  exists_round : ∀ s, (∃ t, Round edges s t) ↔ s.queue ≠ []
  isConsistent : ∀ s, Reaches edges (start F queue grew) s → s.IsConsistent
  waits : ∀ s, Reaches edges (start F queue grew) s → ∀ u v, (u, v) ∈ edges →
    (∃ x ∈ s.sets.entry u, x ∉ s.sets.entry v) → u ∈ s.queue
  isResult : ∀ t, Reaches edges (start F queue grew) t → t.queue = [] → IsResult edges F grew t
  agree : ∀ queue', (∀ k ∈ F, k ∈ queue') → ∀ t t', Reaches edges (start F queue grew) t →
    t.queue = [] → Reaches edges (start F queue' grew) t' → t'.queue = [] →
    t.sets.entry = t'.sets.entry ∧ t.grew = t'.grew
  run : Reaches edges (start F queue grew) ((loop edges).run (start F queue grew)) ∧
    ((loop edges).run (start F queue grew)).queue = []

theorem reaches_run (edges : List (Symbol × Symbol)) (s : Propagation) :
    Reaches edges s ((loop edges).run s) :=
  (loop edges).run_induction (fun _ _ ht h => h.tail (.of_next ht)) .refl

/-- **The order of visits does not matter.** Whatever the edges, when every symbol that has a set
    waits in the beginning, and none of them twice, all schedules end with the same result. -/
theorem isScheduleFree (hnodup : queue.Nodup) (hkeys : ∀ k ∈ F, k ∈ queue) :
    IsScheduleFree edges F queue grew where
  wellFounded := wellFounded_round edges
  exists_round _ := exists_round_iff
  isConsistent _ hs := hs.isConsistent (isConsistent_start hnodup)
  waits _ hs _ _ huv := fun ⟨_, hx, hlacks⟩ =>
    (hs.sound (sound_start hkeys edges grew)).mem_queue huv hx hlacks
  isResult _ ht hqueue := ht.isResult hkeys hqueue
  agree _ hkeys' _ _ ht hqueue ht' hqueue' :=
    (ht.isResult hkeys hqueue).unique (ht'.isResult hkeys' hqueue')
  run := ⟨reaches_run edges _, queue_run edges _⟩

/-- Edges both ways between `A` and `B`, and one from `A` to itself. -/
def ring : List (Symbol × Symbol) :=
  [(.nonterminal "A", .nonterminal "B"), (.nonterminal "B", .nonterminal "A"),
    (.nonterminal "A", .nonterminal "A")]

/-- `A` has `$`, and `B` has nothing yet. -/
def ringSets : Family :=
  (Family.ofKeys [.nonterminal "A", .nonterminal "B"]).add (.nonterminal "A") {.eof}

theorem isScheduleFree_ring :
    IsScheduleFree ring ringSets [.nonterminal "B", .nonterminal "A"] false ∧
      ∀ t, Reaches ring (start ringSets [.nonterminal "B", .nonterminal "A"] false) t →
        t.queue = [] → .eof ∈ t.sets.entry (.nonterminal "B") ∧ t.grew = true := by
  have hfree : IsScheduleFree ring ringSets [.nonterminal "B", .nonterminal "A"] false := by
    refine isScheduleFree (by decide) fun k hk => ?_
    rw [ringSets, Family.mem_add, Family.mem_ofKeys] at hk
    rcases hk with rfl | hk
    · decide
    · exact (List.Perm.swap _ _ []).mem_iff.1 hk
  refine ⟨hfree, fun t ht hqueue => ?_⟩
  have hresult := hfree.isResult t ht hqueue
  have heof : .eof ∈ t.sets.entry (.nonterminal "B") := by
    refine (hresult.mem_entry_iff _ _).2 ⟨.nonterminal "A", .single (by decide), ?_⟩
    simp [ringSets, Family.mem_entry_add]
  refine ⟨heof, hresult.grew_iff.2 (Or.inr ⟨.nonterminal "B", .eof, heof, ?_⟩)⟩
  simp [ringSets, Family.mem_entry_add, Family.entry_ofKeys]

end Propagation

end ShiftReduce
