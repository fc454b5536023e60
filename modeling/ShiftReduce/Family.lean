import Std.Data.ExtTreeMap
import ShiftReduce.Loop
import ShiftReduce.Symbol

set_option autoImplicit false

/-! # Families of symbol sets

A family gives each of its symbols a set of symbols, and grows by unions only. FIRST and FOLLOW
sets are families. What is still missing from a family, counted over some keys and some possible
members, is what bounds the loops that let it grow. -/

namespace ShiftReduce

/-- Two families are equal when they have the same keys and the same set at each. -/
abbrev Family := Std.ExtTreeMap Symbol SymbolSet

namespace Family

instance : DecidableEq Family :=
  inferInstance

/-- The set at `k`, which is empty when `k` is no key. -/
def entry (F : Family) (k : Symbol) : SymbolSet :=
  F.getD k ∅

/-- Adds the members of `xs` to the set at `k`, which becomes a key. -/
def add (F : Family) (k : Symbol) (xs : SymbolSet) : Family :=
  F.insert k (F.entry k ∪ xs)

/-- Whether the set at `k` would get a new member from `xs`. -/
def gains (F : Family) (k : Symbol) (xs : SymbolSet) : Bool :=
  xs.toList.any fun x => x ∉ F.entry k

/-- All members of the family's sets. -/
def members (F : Family) : SymbolSet :=
  Std.ExtTreeSet.ofList (F.toList.flatMap fun (_, xs) => xs.toList)

/-- The family with empty sets at the given keys. -/
def ofKeys (keys : List Symbol) : Family :=
  Std.ExtTreeMap.ofList (keys.map fun k => (k, ∅))

/-! ## Entries -/

theorem entry_eq_of_getElem? {F : Family} {k : Symbol} {xs : SymbolSet} (h : F[k]? = some xs) :
    F.entry k = xs := by
  simp [entry, Std.ExtTreeMap.getD_eq_getD_getElem?, h]

theorem entry_eq_empty {F : Family} {k : Symbol} (h : F[k]? = none) : F.entry k = ∅ := by
  simp [entry, Std.ExtTreeMap.getD_eq_getD_getElem?, h]

theorem getElem?_add (F : Family) (k j : Symbol) (xs : SymbolSet) :
    (F.add k xs)[j]? = if k = j then some (F.entry k ∪ xs) else F[j]? := by
  simp [add, Std.ExtTreeMap.getElem?_insert]

theorem entry_add (F : Family) (k j : Symbol) (xs : SymbolSet) :
    (F.add k xs).entry j = if k = j then F.entry k ∪ xs else F.entry j := by
  unfold entry
  rw [Std.ExtTreeMap.getD_eq_getD_getElem?, getElem?_add]
  split
  · rfl
  · rw [Std.ExtTreeMap.getD_eq_getD_getElem?]

theorem mem_entry_add {F : Family} {k j x : Symbol} {xs : SymbolSet} :
    x ∈ (F.add k xs).entry j ↔ x ∈ F.entry j ∨ k = j ∧ x ∈ xs := by
  rw [entry_add]
  split
  · subst j; simp
  · simp [*]

theorem mem_add {F : Family} {k j : Symbol} {xs : SymbolSet} : j ∈ F.add k xs ↔ k = j ∨ j ∈ F := by
  simp [add]

theorem getElem?_insertMany_empty (F : Family) (keys : List Symbol) (k : Symbol) :
    (F.insertMany (keys.map fun j => (j, (∅ : SymbolSet))))[k]? =
      if k ∈ keys then some ∅ else F[k]? := by
  induction keys generalizing F with
  | nil => simp
  | cons j rest ih =>
    rw [List.map_cons, Std.ExtTreeMap.insertMany_cons, ih, Std.ExtTreeMap.getElem?_insert]
    by_cases hj : j = k
    · simp [hj]
    · simp [hj, Ne.symm hj]

theorem getElem?_ofKeys (keys : List Symbol) (k : Symbol) :
    (ofKeys keys)[k]? = if k ∈ keys then some ∅ else none := by
  rw [ofKeys, Std.ExtTreeMap.ofList_eq_insertMany_empty, getElem?_insertMany_empty]
  simp

theorem entry_ofKeys (keys : List Symbol) (k : Symbol) : (ofKeys keys).entry k = ∅ := by
  by_cases h : k ∈ keys
  · exact entry_eq_of_getElem? (by rw [getElem?_ofKeys, if_pos h])
  · exact entry_eq_empty (by rw [getElem?_ofKeys, if_neg h])

theorem mem_ofKeys {keys : List Symbol} {k : Symbol} : k ∈ ofKeys keys ↔ k ∈ keys := by
  rw [Std.ExtTreeMap.mem_iff_isSome_getElem?, getElem?_ofKeys]
  by_cases h : k ∈ keys <;> simp [h]

/-- A key has its set. -/
theorem getElem?_eq_some_entry {F : Family} {k : Symbol} (h : k ∈ F) : F[k]? = some (F.entry k) := by
  obtain ⟨xs, hxs⟩ := Option.isSome_iff_exists.1 (Std.ExtTreeMap.mem_iff_isSome_getElem?.1 h)
  rw [hxs, entry_eq_of_getElem? hxs]

/-- A family is told by its keys and by the members of their sets. -/
theorem ext_mem {F G : Family} (hkeys : ∀ k, k ∈ F ↔ k ∈ G)
    (h : ∀ k ∈ F, ∀ y, y ∈ F.entry k ↔ y ∈ G.entry k) : F = G := by
  refine Std.ExtTreeMap.ext_getElem? fun k => ?_
  by_cases hk : k ∈ F
  · have hentry : F.entry k = G.entry k := Std.ExtTreeSet.ext_mem fun y => h k hk y
    rw [getElem?_eq_some_entry hk, getElem?_eq_some_entry ((hkeys k).1 hk), hentry]
  · rw [Std.ExtTreeMap.getElem?_eq_none hk,
      Std.ExtTreeMap.getElem?_eq_none fun hG => hk ((hkeys k).2 hG)]

/-- Adding to a key what its set has changes nothing. -/
theorem add_eq_self {F : Family} {k : Symbol} {xs : SymbolSet} (hk : k ∈ F)
    (h : ∀ x ∈ xs, x ∈ F.entry k) : F.add k xs = F := by
  refine Std.ExtTreeMap.ext_getElem? fun j => ?_
  rw [getElem?_add]
  split
  · subst j
    rw [getElem?_eq_some_entry hk]
    refine congrArg some (Std.ExtTreeSet.ext_mem fun x => ?_)
    simpa using h x
  · rfl

theorem gains_iff {F : Family} {k : Symbol} {xs : SymbolSet} :
    F.gains k xs = true ↔ ∃ x ∈ xs, x ∉ F.entry k := by
  simp [gains]

theorem gains_eq_false_iff {F : Family} {k : Symbol} {xs : SymbolSet} :
    F.gains k xs = false ↔ ∀ x ∈ xs, x ∈ F.entry k := by
  rw [← Bool.not_eq_true, gains_iff]
  simp

/-! ## Members -/

theorem mem_members {F : Family} {x : Symbol} : x ∈ F.members ↔ ∃ k, x ∈ F.entry k := by
  have key (k : Symbol) : x ∈ F.entry k ↔ ∃ xs, F[k]? = some xs ∧ x ∈ xs := by
    match h : F[k]? with
    | none => simp [entry_eq_empty h]
    | some xs => simp [entry_eq_of_getElem? h]
  simp only [members, Std.ExtTreeSet.mem_ofList, List.contains_iff_mem, List.mem_flatMap,
    Prod.exists, Std.ExtTreeMap.mem_toList_iff_getElem?_eq_some, Std.ExtTreeSet.mem_toList, key]

/-- Adding members that the family has already does not change its members. -/
theorem members_add {F : Family} {k : Symbol} {xs : SymbolSet} (h : ∀ x ∈ xs, x ∈ F.members) :
    (F.add k xs).members = F.members := by
  refine Std.ExtTreeSet.ext_mem fun x => ?_
  rw [mem_members]
  simp only [mem_entry_add]
  constructor
  · rintro ⟨j, hx | ⟨-, hx⟩⟩
    · exact mem_members.2 ⟨j, hx⟩
    · exact h x hx
  · intro hx
    obtain ⟨j, hx⟩ := mem_members.1 hx
    exact ⟨j, Or.inl hx⟩

/-! ## What is missing -/

/-- The pairs of a key and a possible member that the set at the key does not have. -/
def missing (F : Family) (keys : List Symbol) (possible : SymbolSet) : Nat :=
  total (fun k => possible.toList.countP fun x => x ∉ F.entry k) keys

theorem missing_add_le (F : Family) (k : Symbol) (xs : SymbolSet) (keys : List Symbol)
    (possible : SymbolSet) : (F.add k xs).missing keys possible ≤ F.missing keys possible := by
  refine total_le_total fun j _ => List.countP_mono_left fun x _ => ?_
  simp [mem_entry_add]
  exact fun h _ => h

theorem missing_add_lt {F : Family} {k : Symbol} {xs : SymbolSet} {keys : List Symbol}
    {possible : SymbolSet} (hk : k ∈ keys) (hxs : ∀ x ∈ xs, x ∈ possible)
    (h : F.gains k xs = true) :
    (F.add k xs).missing keys possible < F.missing keys possible := by
  obtain ⟨x, hx, hxk⟩ := gains_iff.1 h
  refine total_lt_total (fun j _ => List.countP_mono_left fun y _ => ?_) hk
    (countP_lt_countP (fun y _ => ?_) (Std.ExtTreeSet.mem_toList.2 (hxs x hx)) ?_ ?_)
  all_goals simp_all [mem_entry_add]

end Family

end ShiftReduce
