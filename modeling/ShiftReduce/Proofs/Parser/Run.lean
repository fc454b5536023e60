import ShiftReduce.Parser

set_option autoImplicit false

/-! # Counting the moves of a run

Every cell of a table holds one action at most, so a run is told by how many moves it makes. A run
that ends where no move can be made is not continued by any other run.

**`Parser.Runs.exists_after`**: every run is what comes out after some number of moves.
**`Parser.Accepts.unique`**: a word is accepted with one list of reductions only. -/

namespace ShiftReduce

namespace Parser

variable {P : Parser} {c d e : Configuration} {ids ids' : List ProductionId} {w : Word}

/-- The productions of the reductions that the next move makes, of which there is one at most. -/
def reductions (P : Parser) (c : Configuration) : List ProductionId :=
  match P.action? c with
  | some (.reduce id) => [id]
  | some (.shift _) | some .accept | none => []

/-- What `n` moves come to, with the productions of the reductions. The last configuration stays
    where no move can be made. -/
def after (P : Parser) (c : Configuration) : Nat → List ProductionId × Configuration
  | 0 => ([], c)
  | n + 1 =>
    match P.next? (P.after c n).2 with
    | some d => ((P.after c n).1 ++ P.reductions (P.after c n).2, d)
    | none => P.after c n

theorem Runs.next (h : P.Runs c ids d) (hnext : P.next? d = some e) :
    P.Runs c (ids ++ P.reductions d) e := by
  unfold next? at hnext
  split at hnext
  · next target haction =>
    rw [reductions, haction, List.append_nil]
    exact h.shift haction hnext
  · next id haction =>
    rw [reductions, haction]
    exact h.reduce haction hnext
  · simp at hnext
  · simp at hnext

theorem runs_after (P : Parser) (c : Configuration) (n : Nat) :
    P.Runs c (P.after c n).1 (P.after c n).2 := by
  induction n with
  | zero => exact .refl c
  | succ n ih =>
    rw [after]
    cases hnext : P.next? (P.after c n).2 with
    | none => exact ih
    | some d => exact ih.next hnext

theorem Runs.exists_after (h : P.Runs c ids d) : ∃ n, P.after c n = (ids, d) := by
  induction h with
  | refl => exact ⟨0, rfl⟩
  | shift _ haction hmove ih =>
    obtain ⟨n, hn⟩ := ih
    refine ⟨n + 1, ?_⟩
    simp [after, hn, next?, reductions, haction, hmove]
  | reduce _ haction hmove ih =>
    obtain ⟨n, hn⟩ := ih
    refine ⟨n + 1, ?_⟩
    simp [after, hn, next?, reductions, haction, hmove]

/-- Where no move can be made, further moves change nothing. -/
theorem after_add {n : Nat} (h : P.next? (P.after c n).2 = none) (k : Nat) :
    P.after c (n + k) = P.after c n := by
  induction k with
  | zero => rfl
  | succ k ih =>
    rw [← Nat.add_assoc, after, ih, h]

/-- Two runs that end where no move can be made are the same. -/
theorem Runs.unique (h : P.Runs c ids d) (h' : P.Runs c ids' e) (hd : P.next? d = none)
    (he : P.next? e = none) : ids = ids' ∧ d = e := by
  obtain ⟨n, hn⟩ := h.exists_after
  obtain ⟨m, hm⟩ := h'.exists_after
  have hlast : P.after c n = P.after c m := by
    calc P.after c n = P.after c (n + m) := (after_add (by rw [hn, hd]) m).symm
      _ = P.after c (m + n) := by rw [Nat.add_comm]
      _ = P.after c m := after_add (by rw [hm, he]) n
  rw [hn, hm] at hlast
  exact Prod.mk.inj hlast

theorem next?_eq_none_of_accept (h : P.action? c = some .accept) : P.next? c = none := by
  rw [next?, h]

theorem Accepts.unique (h : P.Accepts w ids) (h' : P.Accepts w ids') : ids = ids' := by
  obtain ⟨c, hc, hcaccept⟩ := h
  obtain ⟨d, hd, hdaccept⟩ := h'
  exact (hc.unique hd (next?_eq_none_of_accept hcaccept) (next?_eq_none_of_accept hdaccept)).1

/-- A word is accepted when some number of moves comes to where the table accepts. -/
theorem accepts_of_after {n : Nat} (h : P.action? (P.after ⟨[], w⟩ n).2 = some .accept) :
    P.Accepts w (P.after ⟨[], w⟩ n).1 :=
  ⟨_, P.runs_after _ n, h⟩

end Parser

end ShiftReduce
