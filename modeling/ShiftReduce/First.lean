import ShiftReduce.Family
import ShiftReduce.Production

set_option autoImplicit false

/-! # FIRST sets

For every nonterminal that is the left side of a production: the terminals that its words can start
with, and whether it can vanish. `$` counts as a terminal here, and dots are passed over.
Productions whose left side is not one nonterminal take no part.

**`FirstTable.pass_ofProductions`**: the table is closed, a further pass over the productions adds
nothing. -/

namespace ShiftReduce

/-- What a word can start with, and whether it can vanish. -/
structure FirstSet where
  terminals : SymbolSet
  nullable : Bool
deriving DecidableEq

/-- The set with further symbols to start with. -/
def FirstSet.including (f : FirstSet) (xs : SymbolSet) : FirstSet :=
  ⟨xs ∪ f.terminals, f.nullable⟩

structure FirstTable where
  sets : Family
  nullable : SymbolSet
deriving DecidableEq

namespace FirstTable

def get? (t : FirstTable) (s : Symbol) : Option SymbolSet :=
  t.sets[s]?

def isNullable (t : FirstTable) (s : Symbol) : Bool :=
  t.nullable.contains s

/-- What the word can start with. Behind a nonterminal that cannot vanish nothing counts. -/
def firstOf (t : FirstTable) : Word → FirstSet
  | [] => ⟨∅, true⟩
  | .terminal name :: _ => ⟨{.terminal name}, false⟩
  | .eof :: _ => ⟨{.eof}, false⟩
  | .dot :: rest => t.firstOf rest
  | s :: rest =>
    if t.isNullable s then (t.firstOf rest).including (t.sets.entry s)
    else ⟨t.sets.entry s, false⟩

/-! ## Computation -/

/-- The left sides of the productions that take part. -/
def leftSides (ps : List Production) : List Symbol :=
  ps.filterMap Production.lhs?

/-- Adds to the entry of `s` what one of its right sides can start with. -/
def absorb (t : FirstTable) (s : Symbol) (found : FirstSet) : FirstTable where
  sets := t.sets.add s found.terminals
  nullable := if found.nullable then t.nullable.insert s else t.nullable

/-- Takes up one production. -/
def extend (t : FirstTable) (p : Production) : FirstTable :=
  match p.lhs? with
  | some s => t.absorb s (t.firstOf p.right)
  | none => t

/-- Takes up the productions one after the other, so that later ones see what earlier ones added. -/
def pass (ps : List Production) (t : FirstTable) : FirstTable :=
  ps.foldl extend t

/-- What taking up a production keeps, passes over productions keep. -/
theorem pass_induction {P : FirstTable → Prop} {ps : List Production} {t : FirstTable}
    (keep : ∀ p ∈ ps, ∀ t, P t → P (t.extend p)) (h : P t) : P (pass ps t) :=
  List.foldlRecOn ps extend h fun t ht p hp => keep p hp t ht

/-- The symbols that a table can come to hold: those of right sides and those it holds already. -/
def possible (ps : List Production) (t : FirstTable) : SymbolSet :=
  Std.ExtTreeSet.ofList (ps.flatMap (·.right)) ∪ t.sets.members

/-- What passes over the productions can still add: members, keys and nullable symbols. -/
def missing (ps : List Production) (t : FirstTable) : Nat :=
  t.sets.missing (leftSides ps) (possible ps t) +
    (leftSides ps).countP (· ∉ t.sets) + (leftSides ps).countP (· ∉ t.nullable)

theorem mem_firstOf {t : FirstTable} {w : Word} {x : Symbol} (h : x ∈ (t.firstOf w).terminals) :
    x ∈ w ∨ x ∈ t.sets.members := by
  fun_induction firstOf t w with
  | case1 => simp at h
  | case2 name rest => simp_all
  | case3 rest => simp_all
  | case4 rest ih => exact (ih h).imp_left (List.mem_cons_of_mem _)
  | case5 s rest _ _ _ _ ih =>
    rcases Std.ExtTreeSet.mem_union_iff.1 h with h | h
    · exact Or.inr (Family.mem_members.2 ⟨s, h⟩)
    · exact (ih h).imp_left (List.mem_cons_of_mem _)
  | case6 s => exact Or.inr (Family.mem_members.2 ⟨s, h⟩)

theorem possible_absorb {ps : List Production} {t : FirstTable} {s : Symbol} {found : FirstSet}
    (h : ∀ x ∈ found.terminals, x ∈ possible ps t) :
    possible ps (t.absorb s found) = possible ps t := by
  refine Std.ExtTreeSet.ext_mem fun x => ?_
  simp only [possible, absorb, Std.ExtTreeSet.mem_union_iff, Family.mem_members,
    Family.mem_entry_add] at h ⊢
  constructor
  · rintro (hx | ⟨k, hx | ⟨-, hx⟩⟩)
    · exact Or.inl hx
    · exact Or.inr ⟨k, hx⟩
    · exact h x hx
  · rintro (hx | ⟨k, hx⟩)
    · exact Or.inl hx
    · exact Or.inr ⟨k, Or.inl hx⟩

/-- Adding to the entry of a left side changes nothing or leaves less to be added. -/
theorem absorb_eq_or_missing_lt {ps : List Production} {t : FirstTable} {s : Symbol}
    {found : FirstSet} (hs : s ∈ leftSides ps) (h : ∀ x ∈ found.terminals, x ∈ possible ps t) :
    t.absorb s found = t ∨ missing ps (t.absorb s found) < missing ps t := by
  have hsets := t.sets.missing_add_le s found.terminals (leftSides ps) (possible ps t)
  have keyMono : ∀ k ∈ leftSides ps, decide (k ∉ (t.absorb s found).sets) = true →
      decide (k ∉ t.sets) = true := fun k _ => by simp [absorb, Family.add]
  have nullMono : ∀ k ∈ leftSides ps, decide (k ∉ (t.absorb s found).nullable) = true →
      decide (k ∉ t.nullable) = true := fun k _ => by simp only [absorb]; split <;> simp
  have hkeys := List.countP_mono_left keyMono
  have hnull := List.countP_mono_left nullMono
  have hsum : missing ps (t.absorb s found) =
      (t.sets.add s found.terminals).missing (leftSides ps) (possible ps t) +
      (leftSides ps).countP (· ∉ (t.absorb s found).sets) +
      (leftSides ps).countP (· ∉ (t.absorb s found).nullable) := by
    rw [missing, possible_absorb h]; rfl
  rw [hsum, missing]
  -- A new member, a new nullable symbol and a new key each make one of the three counts smaller.
  by_cases hgain : t.sets.gains s found.terminals = true
  · have := Family.missing_add_lt hs h hgain
    omega
  by_cases hkey : s ∈ t.sets
  · by_cases hn : found.nullable = true ∧ s ∉ t.nullable
    · have := countP_lt_countP nullMono hs (by simp [absorb, hn.1]) (by simp [hn.2])
      omega
    · left
      have hsame : t.sets.add s found.terminals = t.sets :=
        Family.add_eq_self hkey (Family.gains_eq_false_iff.1 (by simpa using hgain))
      have hsame' : (if found.nullable then t.nullable.insert s else t.nullable) = t.nullable := by
        split
        · next hf =>
          refine Std.ExtTreeSet.ext_mem fun x => ?_
          have : s ∈ t.nullable := by simpa [hf] using hn
          simp only [Std.ExtTreeSet.mem_insert, Std.LawfulEqCmp.compare_eq_iff_eq]
          constructor
          · rintro (rfl | hx)
            · exact this
            · exact hx
          · exact Or.inr
        · rfl
      simp only [absorb, hsame, hsame']
  · have := countP_lt_countP keyMono hs (by simp [absorb, Family.add]) (by simp [hkey])
    omega

/-- Taking up a production changes nothing or leaves less to be added. -/
theorem extend_eq_or_missing_lt {ps : List Production} {p : Production} (hp : p ∈ ps)
    (t : FirstTable) : t.extend p = t ∨ missing ps (t.extend p) < missing ps t := by
  match hs : p.lhs? with
  | none => exact Or.inl (by simp [extend, hs])
  | some s =>
    have hk : s ∈ leftSides ps := List.mem_filterMap.2 ⟨p, hp, hs⟩
    have hfound : ∀ x ∈ (t.firstOf p.right).terminals, x ∈ possible ps t := fun x hx => by
      simp only [possible, Std.ExtTreeSet.mem_union_iff, Std.ExtTreeSet.mem_ofList,
        List.contains_iff_mem, List.mem_flatMap]
      exact (mem_firstOf hx).imp_left fun h => ⟨p, hp, h⟩
    rw [show t.extend p = t.absorb s (t.firstOf p.right) by simp [extend, hs]]
    exact absorb_eq_or_missing_lt hk hfound

/-- A pass over some of the productions. -/
theorem pass_eq_or_missing_lt_of_subset {ps qs : List Production} (hq : ∀ q ∈ qs, q ∈ ps)
    (t : FirstTable) : pass qs t = t ∨ missing ps (pass qs t) < missing ps t := by
  induction qs generalizing t with
  | nil => exact Or.inl rfl
  | cons q rest ih =>
    have hrest := ih (fun r hr => hq r (List.mem_cons_of_mem q hr)) (t.extend q)
    show pass rest (t.extend q) = t ∨ missing ps (pass rest (t.extend q)) < missing ps t
    rcases extend_eq_or_missing_lt (hq q List.mem_cons_self) t with h | h
    · rwa [h] at hrest ⊢
    · rcases hrest with hrest | hrest
      · rw [hrest]; exact Or.inr h
      · exact Or.inr (Nat.lt_trans hrest h)

theorem pass_eq_or_missing_lt (ps : List Production) (t : FirstTable) :
    pass ps t = t ∨ missing ps (pass ps t) < missing ps t :=
  pass_eq_or_missing_lt_of_subset (fun _ h => h) t

/-- Passes over the productions until one of them changes nothing. -/
def saturation (ps : List Production) : Loop FirstTable where
  next t := if pass ps t = t then none else some (pass ps t)
  size := missing ps
  size_next {t u} h := by
    split at h
    · simp at h
    · next hne =>
      obtain rfl := Option.some.inj h
      exact (pass_eq_or_missing_lt ps t).resolve_left hne

theorem next_saturation_eq_none_iff {ps : List Production} {t : FirstTable} :
    (saturation ps).next t = none ↔ pass ps t = t := by
  change (if pass ps t = t then none else some (pass ps t)) = none ↔ _
  simp

theorem next_saturation_eq_some_iff {ps : List Production} {t u : FirstTable} :
    (saturation ps).next t = some u ↔ pass ps t ≠ t ∧ u = pass ps t := by
  change (if pass ps t = t then none else some (pass ps t)) = some u ↔ _
  rw [Option.ite_none_left_eq_some, Option.some.injEq, eq_comm (a := u)]

/-- The table with empty entries for the left sides. -/
def initial (ps : List Production) : FirstTable where
  sets := .ofKeys (leftSides ps)
  nullable := ∅

def ofProductions (ps : List Production) : FirstTable :=
  (saturation ps).run (initial ps)

theorem pass_ofProductions (ps : List Production) :
    pass ps (ofProductions ps) = ofProductions ps :=
  next_saturation_eq_none_iff.1 ((saturation ps).next_run (initial ps))

/-- What passes keep from the table with empty entries on holds of the final table. -/
theorem ofProductions_induction {P : FirstTable → Prop} {ps : List Production}
    (keep : ∀ t, P t → P (pass ps t)) (h : P (initial ps)) : P (ofProductions ps) := by
  refine (saturation ps).run_induction ?_ h
  intro t u hnext ht
  obtain ⟨-, rfl⟩ := next_saturation_eq_some_iff.1 hnext
  exact keep t ht

end FirstTable

end ShiftReduce
