set_option autoImplicit false

/-! # Loops that stop

A loop is a step together with a size that every step makes smaller, so that running it needs no
bound from outside. The worklists and fixed points of the library are loops, and what they keep
from step to step is stated over the states at the loop's head.

**`Loop.next_run`**: the result of a run is a state where the loop stops.
**`Loop.run_induction`**: what holds at the start and is kept by every step holds of the result. -/

namespace ShiftReduce

/-- One round is `next`, and `none` ends the loop. -/
structure Loop (σ : Type) where
  next : σ → Option σ
  size : σ → Nat
  size_next : ∀ {s t : σ}, next s = some t → size t < size s

namespace Loop

variable {σ : Type} (l : Loop σ)

/-- The state in which the loop stops when it starts from `s`. -/
def run (s : σ) : σ :=
  match _h : l.next s with
  | none => s
  | some t => run t
termination_by l.size s
decreasing_by exact l.size_next _h

/-- The states at the loop's head, from `s` to the one in which the loop stops. -/
def heads (s : σ) : List σ :=
  match _h : l.next s with
  | none => [s]
  | some t => s :: heads t
termination_by l.size s
decreasing_by exact l.size_next _h

variable {l} {s t : σ}

theorem run_of_next_eq_none (h : l.next s = none) : l.run s = s := by
  rw [run]; split <;> simp_all

theorem run_of_next_eq_some (h : l.next s = some t) : l.run s = l.run t := by
  rw [run]; split <;> simp_all

theorem heads_of_next_eq_none (h : l.next s = none) : l.heads s = [s] := by
  rw [heads]; split <;> simp_all

theorem heads_of_next_eq_some (h : l.next s = some t) : l.heads s = s :: l.heads t := by
  rw [heads]; split <;> simp_all

/-- Induction along a run, from the state where it stops back to the start. -/
theorem induction_on (l : Loop σ) {motive : σ → Prop} (s : σ)
    (stop : ∀ s, l.next s = none → motive s)
    (step : ∀ s t, l.next s = some t → motive t → motive s) : motive s := by
  match h : l.next s with
  | none => exact stop s h
  | some t => exact step s t h (induction_on l t stop step)
termination_by l.size s
decreasing_by exact l.size_next h

/-- The state after at most the given number of rounds. -/
def after (l : Loop σ) : Nat → σ → σ
  | 0, s => s
  | n + 1, s =>
    match l.next s with
    | none => s
    | some t => l.after n t

theorem run_after (l : Loop σ) (n : Nat) (s : σ) : l.run (l.after n s) = l.run s := by
  induction n generalizing s with
  | zero => rfl
  | succ n ih =>
    rw [after]
    split
    · rfl
    · next t ht => rw [ih, run_of_next_eq_some ht]

/-- A run can be computed by counting its rounds, without its size. -/
theorem run_eq_after {n : Nat} (h : l.next (l.after n s) = none) : l.run s = l.after n s := by
  rw [← l.run_after n, run_of_next_eq_none h]

theorem next_run (l : Loop σ) (s : σ) : l.next (l.run s) = none := by
  induction s using l.induction_on with
  | stop s h => rwa [run_of_next_eq_none h]
  | step s t h ih => rwa [run_of_next_eq_some h]

theorem run_induction (l : Loop σ) {P : σ → Prop} (keep : ∀ s t, l.next s = some t → P s → P t)
    {s : σ} (h : P s) : P (l.run s) := by
  induction s using l.induction_on with
  | stop s hs => rwa [run_of_next_eq_none hs]
  | step s t hs ih => rw [run_of_next_eq_some hs]; exact ih (keep s t hs h)

/-- What holds at the start and is kept by every step holds at every loop head. -/
theorem forall_mem_heads (l : Loop σ) {P : σ → Prop} (keep : ∀ s t, l.next s = some t → P s → P t)
    {s : σ} (h : P s) : ∀ t ∈ l.heads s, P t := by
  induction s using l.induction_on with
  | stop s hs => simpa [heads_of_next_eq_none hs] using h
  | step s t hs ih => simpa [heads_of_next_eq_some hs] using ⟨h, ih (keep s t hs h)⟩

theorem head?_heads (l : Loop σ) (s : σ) : (l.heads s).head? = some s := by
  cases h : l.next s with
  | none => rw [heads_of_next_eq_none h]; rfl
  | some t => rw [heads_of_next_eq_some h]; rfl

/-- A run ends at the last of its heads. -/
theorem getLast?_heads (l : Loop σ) (s : σ) : (l.heads s).getLast? = some (l.run s) := by
  induction s using l.induction_on with
  | stop s h => simp [heads_of_next_eq_none h, run_of_next_eq_none h]
  | step s t h ih =>
    rw [heads_of_next_eq_some h, run_of_next_eq_some h, List.getLast?_cons, ih]
    rfl

theorem heads_ne_nil (l : Loop σ) (s : σ) : l.heads s ≠ [] := by
  intro h
  simpa [h] using l.getLast?_heads s

/-- There are no more heads than a size allows that every round makes smaller. -/
theorem length_heads_le (l : Loop σ) {P : σ → Prop} {f : σ → Nat}
    (keep : ∀ s t, l.next s = some t → P s → P t)
    (less : ∀ s t, l.next s = some t → P s → f t < f s) {s : σ} (h : P s) :
    (l.heads s).length ≤ f s + 1 := by
  induction s using l.induction_on with
  | stop s hs => simp [heads_of_next_eq_none hs]
  | step s t hs ih =>
    rw [heads_of_next_eq_some hs, List.length_cons]
    have hrest := ih (keep s t hs h)
    have hless := less s t hs h
    omega

/-- A run has come to its end after as many rounds as there are heads. -/
theorem after_eq_run (l : Loop σ) {n : Nat} {s : σ} (h : (l.heads s).length ≤ n + 1) :
    l.after n s = l.run s := by
  induction s using l.induction_on generalizing n with
  | stop s hs =>
    rw [run_of_next_eq_none hs]
    cases n with
    | zero => rfl
    | succ n => rw [after, hs]
  | step s t hs ih =>
    rw [heads_of_next_eq_some hs, List.length_cons] at h
    have hpos := List.length_pos_iff.2 (l.heads_ne_nil t)
    cases n with
    | zero => omega
    | succ n =>
      rw [after, hs, run_of_next_eq_some hs]
      exact ih (by omega)

end Loop

/-! ## Sizes by counting -/

variable {α : Type}

theorem countP_lt_countP {p q : α → Bool} {l : List α} (h : ∀ a ∈ l, p a = true → q a = true)
    {a : α} (ha : a ∈ l) (hp : p a = false) (hq : q a = true) : l.countP p < l.countP q := by
  induction l with
  | nil => simp at ha
  | cons b rest ih =>
    have hle := List.countP_mono_left fun c hc => h c (List.mem_cons_of_mem b hc)
    have hb := h b List.mem_cons_self
    rcases List.mem_cons.1 ha with rfl | ha
    · rw [List.countP_cons_of_neg (by simp [hp]), List.countP_cons_of_pos hq]
      omega
    · have hlt := ih (fun c hc => h c (List.mem_cons_of_mem b hc)) ha
      by_cases hpb : p b = true
      · rw [List.countP_cons_of_pos hpb, List.countP_cons_of_pos (hb hpb)]
        omega
      · rw [List.countP_cons_of_neg hpb, List.countP_cons]
        omega

/-- The sum of a count over a list. -/
def total (f : α → Nat) (l : List α) : Nat :=
  l.foldr (fun a n => f a + n) 0

theorem total_le_total {f g : α → Nat} {l : List α} (h : ∀ a ∈ l, f a ≤ g a) :
    total f l ≤ total g l := by
  induction l with
  | nil => exact Nat.le_refl _
  | cons b rest ih =>
    have hrest := ih fun c hc => h c (List.mem_cons_of_mem b hc)
    exact Nat.add_le_add (h b List.mem_cons_self) hrest

theorem total_lt_total {f g : α → Nat} {l : List α} (h : ∀ a ∈ l, f a ≤ g a) {a : α}
    (ha : a ∈ l) (hlt : f a < g a) : total f l < total g l := by
  induction l with
  | nil => simp at ha
  | cons b rest ih =>
    have hrest := fun c hc => h c (List.mem_cons_of_mem b hc)
    rcases List.mem_cons.1 ha with rfl | ha
    · exact Nat.add_lt_add_of_lt_of_le hlt (total_le_total hrest)
    · exact Nat.add_lt_add_of_le_of_lt (h b List.mem_cons_self) (ih hrest ha)

end ShiftReduce
