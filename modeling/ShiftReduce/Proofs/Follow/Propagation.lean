import ShiftReduce.Follow

set_option autoImplicit false

/-! # What the propagation settles

An edge is settled when the set at its source is part of the set at its target. The edges that are
not settled start at symbols that wait in the queue, so all of them are settled when the queue runs
dry. While the edges out of a symbol are visited, those not yet visited may be unsettled too. None
of this needs the edges to be visited in the order in which they are listed.

**`Propagation.settled_run`**: the worklist settles every edge.
**`Propagation.run_induction`**: all that it does is to hand on, along edges, what is there. -/

namespace ShiftReduce

/-- Whether each set of the one family is part of the set of the other at the same symbol. -/
def Family.Within (F G : Family) : Prop :=
  ∀ k, ∀ x ∈ F.entry k, x ∈ G.entry k

theorem Family.Within.trans {F G H : Family} (h : F.Within G) (h' : G.Within H) : F.Within H :=
  fun k x hx => h' k x (h k x hx)

namespace Propagation

variable {edges : List (Symbol × Symbol)} {source : SymbolSet} {s t : Propagation}
  {u v a x : Symbol} {todo : List Symbol}

theorem mem_targets_iff : v ∈ targets edges u ↔ (u, v) ∈ edges := by
  simp only [targets, List.mem_filterMap, Prod.exists]
  refine ⟨?_, ?_⟩
  · intro h
    obtain ⟨a, b, hmem, h⟩ := h
    split at h
    · next ha =>
      obtain rfl := Option.some.inj h
      exact ha ▸ hmem
    · simp at h
  · intro h
    exact ⟨u, v, h, by simp⟩

/-- One round with the edges out of the first symbol of the queue visited in some order. -/
def Round (edges : List (Symbol × Symbol)) (s t : Propagation) : Prop :=
  ∃ u rest, ∃ order : List Symbol, s.queue = u :: rest ∧ (∀ v, v ∈ order ↔ (u, v) ∈ edges) ∧
    order.foldl (visit (s.sets.entry u)) { s with queue := rest, queued := s.queued.erase u } = t

/-- The loop visits the edges in the order in which they are listed. -/
theorem Round.of_next (h : s.next edges = some t) : Round edges s t := by
  obtain ⟨u, rest, hq, h⟩ := exists_of_next h
  exact ⟨u, rest, targets edges u, hq, fun v => mem_targets_iff, h⟩

/-! ## Visiting an edge -/

theorem sets_visit (source : SymbolSet) (s : Propagation) (v : Symbol) :
    (visit source s v).sets = s.sets.add v source := by
  unfold visit
  split <;> rfl

theorem mem_entry_visit :
    x ∈ (visit source s v).sets.entry a ↔ x ∈ s.sets.entry a ∨ v = a ∧ x ∈ source := by
  rw [sets_visit, Family.mem_entry_add]

theorem mem_queue_visit (h : u ∈ s.queue) : u ∈ (visit source s v).queue := by
  unfold visit
  split
  · dsimp only
    split
    · exact h
    · exact List.mem_append_left _ h
  · exact h

/-- Every symbol that counts as waiting waits in the queue. -/
def QueuedSubset (s : Propagation) : Prop :=
  ∀ w ∈ s.queued, w ∈ s.queue

theorem QueuedSubset.visit (h : s.QueuedSubset) : (visit source s v).QueuedSubset := by
  unfold Propagation.visit
  split
  · intro w hw
    simp only [Std.ExtTreeSet.mem_insert, Std.LawfulEqCmp.compare_eq_iff_eq] at hw
    dsimp only
    by_cases hv : v ∈ s.queued
    · rw [if_pos hv]
      rcases hw with rfl | hw
      · exact h v hv
      · exact h w hw
    · rw [if_neg hv]
      rcases hw with rfl | hw
      · exact List.mem_append_right _ List.mem_cons_self
      · exact List.mem_append_left _ (h w hw)
  · exact h

/-- A set that gets a new member makes its symbol wait. -/
theorem mem_queue_visit_of_gains (h : s.QueuedSubset) (hgain : s.sets.gains v source = true) :
    v ∈ (visit source s v).queue := by
  refine h.visit v ?_
  rw [Propagation.visit, if_pos hgain]
  simp

/-- The set at a symbol that does not wait after the visit is what it was. -/
theorem mem_entry_of_not_mem_queue_visit (h : s.QueuedSubset) (ha : a ∉ (visit source s v).queue)
    (hx : x ∈ (visit source s v).sets.entry a) : x ∈ s.sets.entry a := by
  rcases mem_entry_visit.1 hx with hold | ⟨rfl, hsource⟩
  · exact hold
  · have hsame : s.sets.gains v source = false := by
      rw [← Bool.not_eq_true]
      exact fun hgain => ha (mem_queue_visit_of_gains h hgain)
    exact Family.gains_eq_false_iff.1 hsame x hsource

/-! ## Settled edges -/

/-- What holds at the head of the loop: every edge from a symbol that does not wait is settled. -/
structure Sound (edges : List (Symbol × Symbol)) (s : Propagation) : Prop where
  queuedSubset : s.QueuedSubset
  settled : ∀ a b, (a, b) ∈ edges → a ∉ s.queue → ∀ x ∈ s.sets.entry a, x ∈ s.sets.entry b

/-- What holds while the edges out of `u` are visited, with those to `todo` left: they may be
    unsettled, and unless `u` waits again its set is still the one that is carried along them. -/
structure Visiting (edges : List (Symbol × Symbol)) (u : Symbol) (source : SymbolSet)
    (todo : List Symbol) (s : Propagation) : Prop where
  queuedSubset : s.QueuedSubset
  source : u ∉ s.queue → ∀ x ∈ s.sets.entry u, x ∈ source
  settled : ∀ a b, (a, b) ∈ edges → a ∉ s.queue → a ≠ u ∨ b ∉ todo →
    ∀ x ∈ s.sets.entry a, x ∈ s.sets.entry b

theorem Visiting.visit (h : Visiting edges u source (v :: todo) s) :
    Visiting edges u source todo (visit source s v) := by
  refine ⟨h.queuedSubset.visit, ?_, ?_⟩
  · intro hu x hx
    have hu' : u ∉ s.queue := fun hmem => hu (mem_queue_visit hmem)
    exact h.source hu' x (mem_entry_of_not_mem_queue_visit h.queuedSubset hu hx)
  · intro a b hab ha hleft x hx
    have ha' : a ∉ s.queue := fun hmem => ha (mem_queue_visit hmem)
    have hxa := mem_entry_of_not_mem_queue_visit h.queuedSubset ha hx
    rw [mem_entry_visit]
    by_cases hnow : a = u ∧ b = v
    · obtain ⟨rfl, rfl⟩ := hnow
      exact Or.inr ⟨rfl, h.source ha' x hxa⟩
    · refine Or.inl (h.settled a b hab ha' ?_ x hxa)
      by_cases hau : a = u
      · have hbv : b ≠ v := fun hb => hnow ⟨hau, hb⟩
        rcases hleft with hne | hb
        · exact absurd hau hne
        · exact Or.inr (by simp [hbv, hb])
      · exact Or.inl hau

theorem Visiting.foldl_visit (h : Visiting edges u source todo s) :
    Visiting edges u source [] (todo.foldl (Propagation.visit source) s) := by
  induction todo generalizing s with
  | nil => exact h
  | cons v rest ih => exact ih h.visit

theorem Sound.round (h : s.Sound edges) (hround : Round edges s t) : t.Sound edges := by
  obtain ⟨u, rest, order, hq, horder, rfl⟩ := hround
  have hvisiting : Visiting edges u (s.sets.entry u) order
      { s with queue := rest, queued := s.queued.erase u } := by
    refine ⟨?_, fun _ _ hx => hx, ?_⟩
    · intro w hw
      simp only [Std.ExtTreeSet.mem_erase, ne_eq, Std.LawfulEqCmp.compare_eq_iff_eq] at hw
      have hmem := h.queuedSubset w hw.2
      rw [hq, List.mem_cons] at hmem
      exact hmem.resolve_left fun hwu => hw.1 hwu.symm
    · intro a b hab ha hleft
      have hne : a ≠ u := by
        rcases hleft with hne | hb
        · exact hne
        · rintro rfl
          exact hb ((horder b).2 hab)
      refine h.settled a b hab ?_
      rw [hq, List.mem_cons, not_or]
      exact ⟨hne, ha⟩
  have hdone := hvisiting.foldl_visit
  exact ⟨hdone.queuedSubset, fun a b hab ha => hdone.settled a b hab ha (Or.inr (by simp))⟩

/-- The worklist as it begins, with some symbols in the queue, and with a flag that tells whether a
    set has got a new member before. -/
def start (F : Family) (queue : List Symbol) (grew : Bool) : Propagation where
  sets := F
  queue := queue
  queued := .ofList queue
  grew := grew

/-- A symbol without a set has nothing to hand on, so it need not wait. -/
theorem sound_start {F : Family} {queue : List Symbol} (h : ∀ k ∈ F, k ∈ queue)
    (edges : List (Symbol × Symbol)) (grew : Bool) : (start F queue grew).Sound edges := by
  refine ⟨?_, ?_⟩
  · intro w hw
    simpa [start] using hw
  · intro a b _ ha x hx
    have hnone : F[a]? = none := Std.ExtTreeMap.getElem?_eq_none fun hmem => ha (h a hmem)
    rw [start, Family.entry_eq_empty hnone] at hx
    simp at hx

/-- No symbol waits in the end. -/
theorem queue_run (edges : List (Symbol × Symbol)) (s : Propagation) :
    ((loop edges).run s).queue = [] :=
  next_eq_none_iff.1 ((loop edges).next_run s)

theorem settled_run (h : s.Sound edges) :
    ∀ a b, (a, b) ∈ edges → ∀ x ∈ ((loop edges).run s).sets.entry a,
      x ∈ ((loop edges).run s).sets.entry b := by
  have hrun := (loop edges).run_induction (fun _ _ ht hs => Sound.round hs (.of_next ht)) h
  intro a b hab
  exact hrun.settled a b hab (by simp [queue_run])

/-! ## Growth -/

/-- What is kept by giving the target of an edge something that its source has is kept by visits of
    edges out of one symbol. -/
theorem foldl_visit_induction {P : Family → Prop}
    (keep : ∀ F a b xs, (a, b) ∈ edges → (∀ x ∈ xs, x ∈ F.entry a) → P F → P (F.add b xs))
    (htodo : ∀ v ∈ todo, (u, v) ∈ edges) (hsource : ∀ x ∈ source, x ∈ s.sets.entry u)
    (h : P s.sets) : P (todo.foldl (visit source) s).sets := by
  induction todo generalizing s with
  | nil => exact h
  | cons v rest ih =>
    refine ih (fun w hw => htodo w (List.mem_cons_of_mem v hw)) ?_ ?_
    · intro x hx
      exact mem_entry_visit.2 (Or.inl (hsource x hx))
    · rw [sets_visit]
      exact keep _ u v source (htodo v List.mem_cons_self) hsource h

theorem Round.induction {P : Family → Prop}
    (keep : ∀ F a b xs, (a, b) ∈ edges → (∀ x ∈ xs, x ∈ F.entry a) → P F → P (F.add b xs))
    (hround : Round edges s t) (h : P s.sets) : P t.sets := by
  obtain ⟨u, rest, order, -, horder, rfl⟩ := hround
  exact foldl_visit_induction keep (fun v => (horder v).1) (fun _ hx => hx) h

/-- The same for the whole propagation. -/
theorem run_induction {P : Family → Prop}
    (keep : ∀ F a b xs, (a, b) ∈ edges → (∀ x ∈ xs, x ∈ F.entry a) → P F → P (F.add b xs))
    (h : P s.sets) : P ((loop edges).run s).sets :=
  (loop edges).run_induction (P := fun t => P t.sets)
    (fun _ _ ht => Round.induction keep (.of_next ht)) h

theorem within_run (edges : List (Symbol × Symbol)) (s : Propagation) :
    s.sets.Within ((loop edges).run s).sets := by
  refine run_induction (P := fun F => s.sets.Within F) ?_ (fun _ _ hx => hx)
  intro F a b xs _ _ hF
  exact hF.trans fun _ _ hx => Family.mem_entry_add.2 (Or.inl hx)

/-- The propagation adds nothing beyond what is handed on along edges. -/
theorem forall_mem_run {R : Symbol → Symbol → Prop}
    (hedge : ∀ a b, (a, b) ∈ edges → ∀ x, R a x → R b x)
    (h : ∀ k, ∀ x ∈ s.sets.entry k, R k x) :
    ∀ k, ∀ x ∈ ((loop edges).run s).sets.entry k, R k x := by
  refine run_induction (P := fun F => ∀ k, ∀ x ∈ F.entry k, R k x) ?_ h
  intro F a b xs hab hxs hF k x hx
  rcases Family.mem_entry_add.1 hx with hold | ⟨rfl, hnew⟩
  · exact hF k x hold
  · exact hedge a b hab x (hF a x (hxs x hnew))

/-- There are no new keys when the edges lead to keys. -/
theorem mem_sets_run_iff (h : ∀ a b, (a, b) ∈ edges → b ∈ s.sets) :
    a ∈ ((loop edges).run s).sets ↔ a ∈ s.sets := by
  refine run_induction (P := fun F => a ∈ F ↔ a ∈ s.sets) ?_ Iff.rfl
  intro F b c xs hbc _ hF
  rw [Family.mem_add, hF]
  refine ⟨?_, Or.inr⟩
  rintro (rfl | hmem)
  · exact h b c hbc
  · exact hmem

end Propagation

end ShiftReduce
