import Mathlib.Data.List.Chain
import Mathlib.Data.List.ProdSigma
import ShiftReduce.Proofs.First.Exact

set_option autoImplicit false

/-! # How many passes the FIRST sets take

What a table tells of a symbol falls into single facts: that its words can start with this or that,
and that it can vanish. Taking up a production adds to the facts about its left side and takes none
away, and since the table that is read is the one that is added to, a pass may go further than one
round of inferences. It never gets past the facts about left sides and symbols of right sides, so
the passes that change something are no more than there are such facts. A pass that reports no
addition has left the table as it was, and that table is closed.

**`FirstTable.passEnlarges_iff`**: a pass reports an addition exactly when it has made one.
**`FirstTable.unsettled_lt_unsettled`**: a table that tells more has fewer facts left to be settled.
**`FirstTable.passesSettle`**: the passes grow to a closed table, and how many they are. -/

namespace ShiftReduce

/-- Every head of a loop but the last one goes on to the next head. -/
theorem Loop.isChain_heads {σ : Type} (l : Loop σ) (s : σ) :
    (l.heads s).IsChain fun s t => l.next s = some t := by
  induction s using l.induction_on with
  | stop s h => rw [heads_of_next_eq_none h]; exact List.isChain_singleton s
  | step s t h ih =>
    rw [heads_of_next_eq_some h, List.isChain_cons]
    refine ⟨fun u hu => ?_, ih⟩
    rw [head?_heads, Option.mem_some_iff] at hu
    rwa [← hu]

namespace FirstTable

variable {ps : List Production} {p : Production} {t u v : FirstTable} {s x : Symbol}
  {o : Option Symbol}

/-! ## Comparing tables -/

/-- Whether the table tells of every symbol what the other table tells of it. -/
def Within (t u : FirstTable) : Prop :=
  ∀ s, (t.entry s).Within (u.entry s)

/-- Whether the table tells something that the other table does not tell. -/
def Outgrows (u t : FirstTable) : Prop :=
  ∃ s o, (u.entry s).has o = true ∧ (t.entry s).has o = false

theorem Within.has (h : t.Within u) (ho : (t.entry s).has o = true) :
    (u.entry s).has o = true :=
  FirstSet.within_iff.1 (h s) o ho

theorem Within.trans (h : t.Within u) (h' : u.Within v) : t.Within v :=
  fun s => (h s).trans (h' s)

theorem not_outgrows_self (t : FirstTable) : ¬t.Outgrows t := by
  rintro ⟨s, o, hnew, hold⟩
  rw [hold] at hnew
  exact Bool.noConfusion hnew

/-- What is new in the last of three growing tables came in with the second or with the last. -/
theorem outgrows_iff_or (h : t.Within u) (h' : u.Within v) :
    v.Outgrows t ↔ u.Outgrows t ∨ v.Outgrows u := by
  constructor
  · rintro ⟨s, o, hnew, hold⟩
    cases hmid : (u.entry s).has o with
    | true => exact Or.inl ⟨s, o, hmid, hold⟩
    | false => exact Or.inr ⟨s, o, hnew, hmid⟩
  · rintro (⟨s, o, hnew, hold⟩ | ⟨s, o, hnew, hmid⟩)
    · exact ⟨s, o, h'.has hnew, hold⟩
    · refine ⟨s, o, hnew, ?_⟩
      rw [← Bool.not_eq_true] at hmid ⊢
      exact fun hold => hmid (h.has hold)

/-- A table is told by its keys and by what it tells. -/
theorem ext_has (hkeys : ∀ s, s ∈ t.sets ↔ s ∈ u.sets)
    (h : ∀ s o, (t.entry s).has o = true ↔ (u.entry s).has o = true) : t = u := by
  have hsets : t.sets = u.sets :=
    Family.ext_mem hkeys fun s _ x => by simpa [entry] using h s (some x)
  have hnullable : t.nullable = u.nullable :=
    Std.ExtTreeSet.ext_mem fun s => by simpa [entry, isNullable] using h s none
  cases t
  cases u
  exact congr (congrArg FirstTable.mk hsets) hnullable

/-! ## Growth -/

theorem within_extend (t : FirstTable) (p : Production) : t.Within (t.extend p) :=
  fun _ => FirstSet.within_iff.2 fun _ ho => has_entry_extend_iff.2 (Or.inl ho)

theorem within_pass (t : FirstTable) (ps : List Production) : t.Within (pass ps t) :=
  pass_induction (fun p _ u h => h.trans (within_extend u p)) fun _ => .refl _

/-- When nothing is told that was not told before, nothing has changed. -/
theorem pass_eq_iff (hkeys : ∀ s ∈ leftSides ps, s ∈ t.sets) :
    pass ps t = t ↔ ¬(pass ps t).Outgrows t := by
  constructor
  · intro h
    rw [h]
    exact not_outgrows_self t
  · intro h
    refine ext_has (fun s => ?_) fun s o => ⟨fun ho => ?_, (within_pass t ps).has⟩
    · rw [mem_sets_pass_iff, or_iff_right_iff_imp]
      exact hkeys s
    · by_contra hold
      exact h ⟨s, o, ho, Bool.not_eq_true _ ▸ hold⟩

/-! ## The flag of a pass -/

/-- Whether taking up the production puts a symbol into the entry of its left side, or has it
    vanish, for the first time. -/
def enlarges (t : FirstTable) (p : Production) : Bool :=
  match p.lhs? with
  | some s =>
    t.sets.gains s (t.firstOf p.right).terminals ||
      (t.firstOf p.right).nullable && !t.isNullable s
  | none => false

/-- Whether one of the productions of a pass enlarges the table that it is taken up into. -/
def passEnlarges : List Production → FirstTable → Bool
  | [], _ => false
  | p :: rest, t => t.enlarges p || passEnlarges rest (t.extend p)

theorem enlarges_iff : t.enlarges p = true ↔ (t.extend p).Outgrows t := by
  simp only [Outgrows, has_entry_extend_iff]
  unfold enlarges
  cases hp : p.lhs? with
  | none => simp
  | some a =>
    simp only [Bool.or_eq_true, Bool.and_eq_true, Bool.not_eq_true', Family.gains_iff]
    constructor
    · rintro (⟨x, hx, hold⟩ | ⟨hnull, hold⟩)
      · exact ⟨a, some x, Or.inr ⟨rfl, decide_eq_true hx⟩, decide_eq_false hold⟩
      · exact ⟨a, none, Or.inr ⟨rfl, hnull⟩, hold⟩
    · rintro ⟨s, o, hnew | ⟨hs, hnew⟩, hold⟩
      · rw [hold] at hnew
        exact Bool.noConfusion hnew
      · obtain rfl := Option.some.inj hs
        cases o with
        | some x => exact Or.inl ⟨x, of_decide_eq_true hnew, of_decide_eq_false hold⟩
        | none => exact Or.inr ⟨hnew, hold⟩

/-- Since nothing is taken away, what a production adds is still there when the pass is over. -/
theorem passEnlarges_iff : passEnlarges ps t = true ↔ (pass ps t).Outgrows t := by
  induction ps generalizing t with
  | nil =>
    exact iff_of_false Bool.noConfusion (not_outgrows_self t)
  | cons p rest ih =>
    rw [passEnlarges, Bool.or_eq_true, enlarges_iff, ih]
    exact (outgrows_iff_or (within_extend t p) (within_pass _ rest)).symm

/-! ## The facts that there are -/

/-- The left sides that take part. -/
def distinctLeftSides (ps : List Production) : SymbolSet :=
  .ofList (leftSides ps)

/-- The terminals of the right sides, and the end of the input if it is there. -/
def starters (ps : List Production) : SymbolSet :=
  .ofList ((ps.flatMap (·.right)).filter fun x => x.isTerminal || x == .eof)

/-- Each left side with each symbol that it might start with, and once without one. -/
def facts (ps : List Production) : List (Symbol × Option Symbol) :=
  (distinctLeftSides ps).toList ×ˢ (none :: (starters ps).toList.map some)

theorem length_facts (ps : List Production) :
    (facts ps).length = (distinctLeftSides ps).size * ((starters ps).size + 1) := by
  rw [facts, List.length_product, List.length_cons, List.length_map, Std.ExtTreeSet.length_toList,
    Std.ExtTreeSet.length_toList]

theorem mem_distinctLeftSides_iff : s ∈ distinctLeftSides ps ↔ s ∈ leftSides ps := by
  simp [distinctLeftSides]

theorem mem_starters_iff : x ∈ starters ps ↔
    (∃ p ∈ ps, x ∈ p.right) ∧ (x.isTerminal = true ∨ x = .eof) := by
  simp [starters]

theorem mem_facts_iff :
    (s, o) ∈ facts ps ↔ s ∈ leftSides ps ∧ ∀ x, o = some x → x ∈ starters ps := by
  rw [facts, List.mem_product, Std.ExtTreeSet.mem_toList, mem_distinctLeftSides_iff]
  cases o <;> simp

/-- Whether the table has the left sides as its keys, is borne out by derivations, and tells nothing
    but facts that there are. -/
structure Fits (ps : List Production) (t : FirstTable) : Prop where
  mem_sets_iff : ∀ s, s ∈ t.sets ↔ s ∈ leftSides ps
  sound : t.IsSound ps
  mem_facts : ∀ s o, (t.entry s).has o = true → (s, o) ∈ facts ps

theorem fits_initial (ps : List Production) : Fits ps (initial ps) := by
  refine ⟨fun _ => Family.mem_ofKeys, isSound_initial ps, fun s o ho => ?_⟩
  cases o <;> simp [entry, initial, isNullable, Family.entry_ofKeys] at ho

theorem Fits.extend (h : Fits ps t) (hp : p ∈ ps) : Fits ps (t.extend p) := by
  have hlhs (a : Symbol) (ha : p.lhs? = some a) : a ∈ leftSides ps :=
    List.mem_filterMap.2 ⟨p, hp, ha⟩
  refine ⟨fun s => ?_, h.sound.extend hp, fun s o ho => ?_⟩
  · rw [mem_sets_extend_iff, h.mem_sets_iff, or_iff_right_iff_imp]
    exact hlhs s
  · rcases has_entry_extend_iff.1 ho with hold | ⟨hs, hnew⟩
    · exact h.mem_facts s o hold
    · refine mem_facts_iff.2 ⟨hlhs s hs, ?_⟩
      rintro x rfl
      have hx := FirstSet.has_some_iff.1 hnew
      -- The symbol stands in the right side, or the table had it in some entry before.
      rcases mem_firstOf hx with hright | hmem
      · exact mem_starters_iff.2 ⟨⟨p, hp, hright⟩, (h.sound.canStart_of_mem_firstOf hx).1⟩
      · obtain ⟨k, hk⟩ := Family.mem_members.1 hmem
        exact (mem_facts_iff.1 (h.mem_facts k (some x) (decide_eq_true hk))).2 x rfl

/-- The facts that the table does not tell yet. -/
def unsettled (ps : List Production) (t : FirstTable) : Nat :=
  (facts ps).countP fun (s, o) => !(t.entry s).has o

theorem unsettled_lt_unsettled (h : t.Within u) (hu : Fits ps u) (hnew : u.Outgrows t) :
    unsettled ps u < unsettled ps t := by
  obtain ⟨s, o, hnew, hold⟩ := hnew
  refine countP_lt_countP (fun f _ hf => ?_) (hu.mem_facts s o hnew) ?_ ?_
  · simp only [Bool.not_eq_true', ← Bool.not_eq_true] at hf ⊢
    exact fun ho => hf (h.has ho)
  · simp [hnew]
  · simp [hold]

/-! ## The passes -/

/-- The tables that the passes begin with, one for each pass. -/
def passes (ps : List Production) : List FirstTable :=
  (saturation ps).heads (initial ps)

theorem Fits.next (h : Fits ps t) (hu : (saturation ps).next t = some u) : Fits ps u := by
  obtain ⟨-, rfl⟩ := next_saturation_eq_some_iff.1 hu
  exact pass_induction (fun _ hp _ ht => ht.extend hp) h

theorem fits_of_mem_passes (h : t ∈ passes ps) : Fits ps t :=
  (saturation ps).forall_mem_heads (fun _ _ hu ht => Fits.next ht hu) (fits_initial ps) t h

/-- The flag of a pass tells whether the pass has changed the table. -/
theorem passEnlarges_iff_pass_ne (h : Fits ps t) :
    passEnlarges ps t = true ↔ pass ps t ≠ t := by
  rw [passEnlarges_iff, ne_eq, pass_eq_iff fun s hs => (h.mem_sets_iff s).2 hs, not_not]

theorem Fits.unsettled_next (h : Fits ps t) (hu : (saturation ps).next t = some u) :
    unsettled ps u < unsettled ps t := by
  have hfits := h.next hu
  obtain ⟨hne, rfl⟩ := next_saturation_eq_some_iff.1 hu
  exact unsettled_lt_unsettled (within_pass t ps) hfits
    (passEnlarges_iff.1 ((passEnlarges_iff_pass_ne h).2 hne))

/-- Every pass but the last one settles a fact. -/
theorem length_passes_le (ps : List Production) :
    (passes ps).length ≤ 1 + (distinctLeftSides ps).size * ((starters ps).size + 1) :=
  calc (passes ps).length ≤ unsettled ps (initial ps) + 1 :=
        (saturation ps).length_heads_le (fun _ _ hu h => Fits.next h hu)
          (fun _ _ hu h => h.unsettled_next hu) (fits_initial ps)
    _ ≤ (facts ps).length + 1 := Nat.succ_le_succ List.countP_le_length
    _ = 1 + (distinctLeftSides ps).size * ((starters ps).size + 1) := by
        rw [length_facts, Nat.add_comm]

/-- The passes go on as long as they report an addition, and the tables grow from pass to pass. -/
theorem isChain_passes (ps : List Production) : (passes ps).IsChain fun t u =>
    u = pass ps t ∧ passEnlarges ps t = true ∧ t.Within u ∧ u.Outgrows t := by
  refine ((saturation ps).isChain_heads (initial ps)).imp_of_mem_imp ?_
  intro t u ht _ hu
  obtain ⟨hne, rfl⟩ := next_saturation_eq_some_iff.1 hu
  have hflag := (passEnlarges_iff_pass_ne (fits_of_mem_passes ht)).2 hne
  exact ⟨rfl, hflag, within_pass t ps, passEnlarges_iff.1 hflag⟩

theorem getLast?_passes (ps : List Production) :
    (passes ps).getLast? = some (ofProductions ps) :=
  (saturation ps).getLast?_heads (initial ps)

theorem fits_ofProductions (ps : List Production) : Fits ps (ofProductions ps) :=
  fits_of_mem_passes (List.mem_of_getLast? (getLast?_passes ps))

/-- What the table tells of a right side it keeps for the left side. -/
theorem exists_get?_and_within (hp : p ∈ ps) (hs : p.lhs? = some s) :
    ∃ xs, (ofProductions ps).get? s = some xs ∧
      ((ofProductions ps).firstOf p.right).Within ⟨xs, (ofProductions ps).isNullable s⟩ := by
  have hkey := ((fits_ofProductions ps).mem_sets_iff s).2 (List.mem_filterMap.2 ⟨p, hp, hs⟩)
  have hwithin := isClosed_ofProductions ps p hp s hs
  rw [firstOf_singleton (Production.isNonterminal_of_lhs? hs)] at hwithin
  exact ⟨_, Family.getElem?_eq_some_entry hkey, hwithin⟩

/-- Whether the passes start with empty entries, each of them takes over what the one before has
    made, and they go on as long as they report an addition; the tables then grow from pass to pass,
    the passes are few enough, and the last one leaves a table as it is whose entries have all that
    it tells of the right sides. -/
structure PassesSettle (ps : List Production) : Prop where
  head_eq : (passes ps).head? = some (initial ps)
  isChain : (passes ps).IsChain fun t u =>
    u = pass ps t ∧ passEnlarges ps t = true ∧ t.Within u ∧ u.Outgrows t
  last_eq : (passes ps).getLast? = some (ofProductions ps)
  fits : ∀ t ∈ passes ps, Fits ps t
  length_le : (passes ps).length ≤ 1 + (distinctLeftSides ps).size * ((starters ps).size + 1)
  after_eq : (saturation ps).after ((distinctLeftSides ps).size * ((starters ps).size + 1))
    (initial ps) = ofProductions ps
  not_enlarges : passEnlarges ps (ofProductions ps) = false
  unchanged : pass ps (ofProductions ps) = ofProductions ps
  closed : ∀ p ∈ ps, ∀ s, p.lhs? = some s → ∃ xs, (ofProductions ps).get? s = some xs ∧
    ((ofProductions ps).firstOf p.right).Within ⟨xs, (ofProductions ps).isNullable s⟩

/-- **The passes settle**, whatever the productions are, and there are no more of them than one and
    the facts about the left sides. -/
theorem passesSettle (ps : List Production) : PassesSettle ps where
  head_eq := (saturation ps).head?_heads (initial ps)
  isChain := isChain_passes ps
  last_eq := getLast?_passes ps
  fits _ := fits_of_mem_passes
  length_le := length_passes_le ps
  after_eq := by
    have hlength := length_passes_le ps
    rw [Nat.add_comm] at hlength
    exact (saturation ps).after_eq_run hlength
  not_enlarges := by
    rw [← Bool.not_eq_true, passEnlarges_iff_pass_ne (fits_ofProductions ps), not_not]
    exact pass_ofProductions ps
  unchanged := pass_ofProductions ps
  closed _ hp _ hs := exists_get?_and_within hp hs

/-- The second pass brings to `A` what the first one has brought to `B`, the third one nothing. -/
example : (passes [.unrestricted [.nonterminal "A"] [.nonterminal "B"],
    .unrestricted [.nonterminal "B"] [.terminal "b"]]).length = 3 := by decide +kernel

end FirstTable

end ShiftReduce
