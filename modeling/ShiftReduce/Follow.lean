import ShiftReduce.First

set_option autoImplicit false

/-! # FOLLOW sets

For every nonterminal the terminals that can come right after it, and `$` where it can end a
sentence. Each occurrence `A → α B β` asks for two inclusions: what `β` can start with follows `B`,
and when `β` can vanish, what follows `A` follows `B` too. The first kind is met by one pass over
the productions, the second by a worklist along the edges from `A` to `B`.

**`Propagation.size_visit_le`**: no visit of an edge makes the worklist's size larger, so taking up
the head of its queue makes it smaller. -/

namespace ShiftReduce

structure FollowTable where
  sets : Family
deriving DecidableEq

/-! ## Occurrences -/

/-- The nonterminals of a word, each with what comes after it. -/
def Word.occurrences : Word → List (Symbol × Word)
  | [] => []
  | s :: rest =>
    if s.isNonterminal then (s, rest) :: occurrences rest else occurrences rest

/-- The pairs `A`, `B` of different symbols with a production `A → α B β` where `β` can vanish. -/
def tailEdges (first : FirstTable) (ps : List Production) : List (Symbol × Symbol) :=
  (ps.flatMap fun p =>
    match p.lhs? with
    | some a => (Word.occurrences p.right).filterMap fun (b, rest) =>
        if b ≠ a ∧ (first.firstOf rest).nullable then some (a, b) else none
    | none => []).eraseDups

/-! ## Growth -/

/-- A family that grows, and whether a set of it has got a new member. -/
structure Growth where
  sets : Family
  grew : Bool

namespace Growth

def add (g : Growth) (k : Symbol) (xs : SymbolSet) : Growth where
  sets := g.sets.add k xs
  grew := g.grew || g.sets.gains k xs

/-- Lets each nonterminal of the right side be followed by what the rest can start with. -/
def addProduction (first : FirstTable) (g : Growth) (p : Production) : Growth :=
  match p.lhs? with
  | some _ => (Word.occurrences p.right).foldl
      (fun g (b, rest) => g.add b (first.firstOf rest).terminals) g
  | none => g

end Growth

/-! ## Propagation -/

/-- A worklist over the edges of a graph of symbols: the sets so far, the symbols whose edges are
    still to be visited, the same as a set, and whether a set has got a new member. -/
structure Propagation where
  sets : Family
  queue : List Symbol
  queued : SymbolSet
  grew : Bool

namespace Propagation

/-- The symbols that the edges out of `u` lead to, in the order of the edges. -/
def targets (edges : List (Symbol × Symbol)) (u : Symbol) : List Symbol :=
  edges.filterMap fun (a, b) => if a = u then some b else none

/-- Visits an edge to `v` from a symbol with the given set. If the set of `v` gets a new member,
    the edges out of `v` have to be visited again. -/
def visit (source : SymbolSet) (s : Propagation) (v : Symbol) : Propagation :=
  if s.sets.gains v source then
    { sets := s.sets.add v source
      queue := if v ∈ s.queued then s.queue else s.queue ++ [v]
      queued := s.queued.insert v
      grew := true }
  else { s with sets := s.sets.add v source }

/-- Takes the first symbol off the queue and visits the edges out of it. -/
def next (edges : List (Symbol × Symbol)) (s : Propagation) : Option Propagation :=
  match s.queue with
  | [] => none
  | u :: rest =>
    some <| (targets edges u).foldl (visit (s.sets.entry u))
      { s with queue := rest, queued := s.queued.erase u }

theorem next_eq_none_iff {edges : List (Symbol × Symbol)} {s : Propagation} :
    s.next edges = none ↔ s.queue = [] := by
  unfold next
  split <;> simp_all

theorem exists_of_next {edges : List (Symbol × Symbol)} {s t : Propagation}
    (h : s.next edges = some t) :
    ∃ u rest, s.queue = u :: rest ∧ (targets edges u).foldl (visit (s.sets.entry u))
      { s with queue := rest, queued := s.queued.erase u } = t := by
  unfold next at h
  split at h
  · simp at h
  · next u rest hq => exact ⟨u, rest, hq, Option.some.inj h⟩

/-- What the sets at the ends of edges can still get, and the symbols that wait. -/
def size (edges : List (Symbol × Symbol)) (s : Propagation) : Nat :=
  s.sets.missing (edges.map Prod.snd) s.sets.members + s.queue.length

theorem members_visit {source : SymbolSet} {s : Propagation} (v : Symbol)
    (h : ∀ x ∈ source, x ∈ s.sets.members) :
    (visit source s v).sets.members = s.sets.members := by
  unfold visit
  split <;> exact Family.members_add h

theorem size_visit_le {edges : List (Symbol × Symbol)} {source : SymbolSet} {s : Propagation}
    {v : Symbol} (hv : v ∈ edges.map Prod.snd) (h : ∀ x ∈ source, x ∈ s.sets.members) :
    size edges (visit source s v) ≤ size edges s := by
  rw [size, members_visit v h, size]
  unfold visit
  split
  · next hgain =>
    have := Family.missing_add_lt hv h hgain
    dsimp only
    split
    · omega
    · simp only [List.length_append, List.length_singleton]; omega
  · have := s.sets.missing_add_le v source (edges.map Prod.snd) s.sets.members
    dsimp only
    omega

theorem size_foldl_visit_le {edges : List (Symbol × Symbol)} {source : SymbolSet}
    {vs : List Symbol} (hvs : ∀ v ∈ vs, v ∈ edges.map Prod.snd) :
    ∀ s : Propagation, (∀ x ∈ source, x ∈ s.sets.members) →
      size edges (vs.foldl (visit source) s) ≤ size edges s := by
  induction vs with
  | nil => exact fun s _ => Nat.le_refl _
  | cons v rest ih =>
    intro s h
    refine Nat.le_trans (ih (fun w hw => hvs w (List.mem_cons_of_mem v hw)) _ ?_)
      (size_visit_le (hvs v List.mem_cons_self) h)
    rwa [members_visit v h]

theorem mem_of_mem_targets {edges : List (Symbol × Symbol)} {u v : Symbol}
    (h : v ∈ targets edges u) : v ∈ edges.map Prod.snd := by
  simp only [targets, List.mem_filterMap, Prod.exists] at h
  obtain ⟨a, b, he, h⟩ := h
  split at h
  · obtain rfl := Option.some.inj h
    exact List.mem_map.2 ⟨_, he, rfl⟩
  · simp at h

/-- Visits edges until no symbol waits. -/
def loop (edges : List (Symbol × Symbol)) : Loop Propagation where
  next := next edges
  size := size edges
  size_next {s t} h := by
    obtain ⟨u, rest, hq, rfl⟩ := exists_of_next h
    refine Nat.lt_of_le_of_lt (size_foldl_visit_le (fun v => mem_of_mem_targets) _ ?_) ?_
    · exact fun x hx => Family.mem_members.2 ⟨u, hx⟩
    · simp [size, hq]

end Propagation

namespace FollowTable

/-! ## Computation -/

/-- Lets the table meet the inclusions that the productions ask for, and tells whether a set has got
    a new member. -/
def refine (t : FollowTable) (ps : List Production) (first : FirstTable) : FollowTable × Bool :=
  let direct := ps.foldl (Growth.addProduction first) ⟨t.sets, false⟩
  let queue := direct.sets.keys
  let done := (Propagation.loop (tailEdges first ps)).run
    ⟨direct.sets, queue, .ofList queue, direct.grew⟩
  (⟨done.sets⟩, done.grew)

/-- Empty sets for the nonterminals of the alphabet and of the productions, and `$` after `s`. -/
def initial (ps : List Production) (nonterminals : SymbolSet) (s : Symbol) : FollowTable where
  sets := (Family.ofKeys ((nonterminals.toList ++ ps.flatMap Production.symbols).filter
    Symbol.isNonterminal)).add s {.eof}

def ofProductions (ps : List Production) (nonterminals : SymbolSet) (s : Symbol)
    (first : FirstTable) : FollowTable :=
  ((initial ps nonterminals s).refine ps first).1

/-! ## Queries -/

def get? (t : FollowTable) (s : Symbol) : Option SymbolSet :=
  t.sets[s]?

/-- Whether the table lets `lookahead` come right after `s`. -/
def allows (t : FollowTable) (s lookahead : Symbol) : Bool :=
  (t.sets.entry s).contains lookahead

def size (t : FollowTable) : Nat :=
  t.sets.size

theorem allows_iff {t : FollowTable} {s lookahead : Symbol} :
    t.allows s lookahead = true ↔ ∃ set, t.get? s = some set ∧ lookahead ∈ set := by
  unfold allows get?
  cases h : t.sets[s]? with
  | none => simp [Family.entry_eq_empty h]
  | some set => simp [Family.entry_eq_of_getElem? h]

end FollowTable

end ShiftReduce
