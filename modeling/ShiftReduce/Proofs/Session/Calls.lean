import Mathlib.Data.List.Induction
import ShiftReduce.Proofs.Session.Coherent
import ShiftReduce.Proofs.Session.Records

set_option autoImplicit false

/-! # Sequences of calls

Calls to a session about a grammar, in any order and with copies in between, are answered as if
nothing had been asked before. A table is computed by the first call that takes it and by no other.
From then on the session keeps it, and it is told of in the log once.

**`Session.run_query_after`**: what a call is answered with after any other calls, which tables are
kept then, and what the call adds to the log. -/

namespace ShiftReduce

/-- Only conflicts are traced, all other records are for debugging. -/
theorem LogRecord.level_eq_trace_iff {r : LogRecord} :
    r.level = .trace ↔ ∃ id n, r = .conflict id n := by
  cases r <;> simp [level]

namespace Session

variable {g : Grammar} {h : g.IsContextFree} {s : Session} {t : Table} {k : Call}

/-! ## Answers -/

theorem run_eq_answer {α : Type} {q : Query α} {r : Except GrammarError α} {tables : List Table}
    (hq : ∀ s : Session, s.grammar = g → s.IsCoherent →
      q.run s = (r, tables.foldl (fill g h) s)) (hs : s.grammar = g) (hcoherent : s.IsCoherent) :
    q.run s = (g.answer q, tables.foldl (fill g h) s) := by
  rw [Grammar.answer, hq s hs hcoherent, hq _ rfl (isCoherent_new g)]

/-- What a call does to a session about a context-free grammar. -/
theorem run_query (h : g.IsContextFree) (k : Call) (hs : s.grammar = g) (hcoherent : s.IsCoherent) :
    k.query.run s = (g.answer k.query, k.tables.foldl (fill g h) s) := by
  cases k with
  | first => exact run_eq_answer (fun _ => run_first h) hs hcoherent
  | follow => exact run_eq_answer (fun _ => run_follow h) hs hcoherent
  | augmented => exact run_eq_answer (fun _ hs _ => run_augmented h hs) hs hcoherent
  | automaton => exact run_eq_answer (fun _ => run_automaton h) hs hcoherent
  | actionTable => exact run_eq_answer (fun _ => run_actionTable h) hs hcoherent
  | clone => rfl

/-- What a call does to a session about any other grammar. -/
theorem run_query_error (h : ¬g.IsContextFree) (hk : k ≠ .clone) (hs : s.grammar = g) :
    k.query.run s = (.error (.notContextFree g.narrowestClass), s) := by
  cases k with
  | first => exact run_first_error h hs
  | follow => exact run_follow_error h hs
  | augmented => exact run_augmented_error h hs
  | automaton => exact run_automaton_error h hs
  | actionTable => exact run_actionTable_error h hs
  | clone => exact absurd rfl hk

theorem answers_query (g : Grammar) (k : Call) : Answers g k.query (g.answer k.query) := by
  by_cases h : g.IsContextFree
  · exact answers_of_run h _ fun _ => run_query h k
  · by_cases hk : k = .clone
    · subst hk
      exact fun s hs hcoherent => ⟨rfl, hs, hcoherent⟩
    · refine answers_of_run_error fun s hs => ?_
      rw [Grammar.answer, run_query_error h hk hs, run_query_error (g := g) h hk rfl]

theorem isCoherent_after (g : Grammar) (calls : List Call) :
    (after g calls).grammar = g ∧ (after g calls).IsCoherent := by
  induction calls using List.reverseRecOn with
  | nil => exact ⟨rfl, isCoherent_new g⟩
  | append_singleton calls k ih =>
    rw [after_concat]
    exact (answers_query g k _ ih.1 ih.2).2

/-- A session has filled in the tables that the calls took, and nothing else happened to it. -/
theorem after_eq_foldl_fill (h : g.IsContextFree) (calls : List Call) :
    after g calls = (calls.flatMap Call.tables).foldl (fill g h) { grammar := g } := by
  induction calls using List.reverseRecOn with
  | nil => rfl
  | append_singleton calls k ih =>
    obtain ⟨hgrammar, hcoherent⟩ := isCoherent_after g calls
    rw [after_concat, run_query h k hgrammar hcoherent, ih]
    simp [List.foldl_append]

theorem after_eq_new (h : ¬g.IsContextFree) (calls : List Call) :
    after g calls = { grammar := g } := by
  induction calls using List.reverseRecOn with
  | nil => rfl
  | append_singleton calls k ih =>
    rw [after_concat, ih]
    by_cases hk : k = .clone
    · subst hk
      rfl
    · rw [run_query_error h hk rfl]

/-! ## Kept tables -/

theorem keeps_put (g : Grammar) (h : g.IsContextFree) (s : Session) (t t' : Table) :
    (s.put g h t).keeps t' = (s.keeps t' || t' == t) := by
  cases t <;> cases t' <;> simp [put, keeps]

theorem keeps_fill (g : Grammar) (h : g.IsContextFree) (s : Session) (t t' : Table) :
    (s.fill g h t).keeps t' = (s.keeps t' || t' == t) := by
  unfold fill
  split
  · next hkept =>
    by_cases ht : t' = t
    · subst ht
      simp [hkept]
    · simp [ht]
  · exact keeps_put g h s t t'

theorem keeps_foldl_fill (g : Grammar) (h : g.IsContextFree) (s : Session) (T : List Table)
    (t : Table) : (T.foldl (fill g h) s).keeps t = (s.keeps t || T.contains t) := by
  induction T generalizing s with
  | nil => simp
  | cons t' rest ih => rw [List.foldl_cons, ih, keeps_fill, List.contains_cons, Bool.or_assoc]

theorem keeps_after (h : g.IsContextFree) (calls : List Call) (t : Table) :
    (after g calls).keeps t = decide (t ∈ calls.flatMap Call.tables) := by
  have hnew : ({ grammar := g } : Session).keeps t = false := by
    cases t <;> rfl
  rw [after_eq_foldl_fill h, keeps_foldl_fill, hnew, Bool.false_or, List.contains_eq_mem]

/-- Whether the session keeps the given tables of its grammar and no other ones. A refused ACTION
    table is kept as its refusal. -/
structure KeepsTables (g : Grammar) (h : g.IsContextFree) (tables : List Table) (s : Session) :
    Prop where
  first : s.first? = if .first ∈ tables then some g.firstTable else none
  follow : s.follow? = if .follow ∈ tables then some g.followTable else none
  automaton : s.automaton? =
    if .automaton ∈ tables then some (.ofGrammar (g.augmented h)) else none
  actions : s.actions? =
    if .actions ∈ tables then some (ActionTable.build (g.tableSource h)) else none

theorem IsCoherent.keepsTables (hcoherent : s.IsCoherent) (hs : s.grammar = g)
    {tables : List Table} (hkeeps : ∀ t, s.keeps t = decide (t ∈ tables)) :
    KeepsTables g h tables s := by
  subst hs
  have hmem (t : Table) : t ∈ tables ↔ s.keeps t = true := by
    rw [hkeeps, decide_eq_true_eq]
  constructor
  case first =>
    cases hfirst : s.first? with
    | none => simp [hmem, keeps, hfirst]
    | some t => simp [hmem, keeps, hfirst, hcoherent.first_eq t hfirst]
  case follow =>
    cases hfollow : s.follow? with
    | none => simp [hmem, keeps, hfollow]
    | some t => simp [hmem, keeps, hfollow, hcoherent.follow_eq t hfollow]
  case automaton =>
    cases hautomaton : s.automaton? with
    | none => simp [hmem, keeps, hautomaton]
    | some a =>
      obtain ⟨_, rfl⟩ := hcoherent.automaton_eq a hautomaton
      simp [hmem, keeps, hautomaton]
  case actions =>
    cases hactions : s.actions? with
    | none => simp [hmem, keeps, hactions]
    | some r =>
      obtain ⟨_, rfl⟩ := hcoherent.actions_eq r hactions
      simp [hmem, keeps, hactions]

theorem keepsTables_after (h : g.IsContextFree) (calls : List Call) :
    KeepsTables g h (calls.flatMap Call.tables) (after g calls) := by
  obtain ⟨hgrammar, hcoherent⟩ := isCoherent_after g calls
  exact hcoherent.keepsTables hgrammar (keeps_after h calls)

/-! ## The log -/

theorem log_put (g : Grammar) (h : g.IsContextFree) (s : Session) (t : Table) :
    (s.put g h t).log = s.log ++ t.records g h := by
  cases t <;> rfl

theorem log_fill (g : Grammar) (h : g.IsContextFree) (s : Session) (t : Table) :
    (s.fill g h t).log = s.log ++ if s.keeps t then [] else t.records g h := by
  unfold fill
  split
  · simp
  · exact log_put g h s t

/-- Filling in tables tells of those that are not kept yet. -/
theorem log_foldl_fill {T : List Table} (hT : T.Nodup) : (T.foldl (fill g h) s).log =
    s.log ++ (T.filter fun t => !s.keeps t).flatMap (Table.records g h) := by
  induction T generalizing s with
  | nil => simp
  | cons t rest ih =>
    obtain ⟨ht, hrest⟩ := List.nodup_cons.1 hT
    have hkept : rest.filter (fun t' => !(s.fill g h t).keeps t') =
        rest.filter (fun t' => !s.keeps t') := by
      refine List.filter_congr fun t' ht' => ?_
      have hne : t' ≠ t := fun he => ht (he ▸ ht')
      simp [keeps_fill, hne]
    rw [List.foldl_cons, ih hrest, hkept, log_fill, List.filter_cons]
    cases s.keeps t <;> simp

/-- The tables that the log tells of. -/
def told (s : Session) : List Table :=
  s.log.filterMap LogRecord.table?

/-- Each table that the log tells of is told of once and kept. -/
structure IsToldOnce (s : Session) : Prop where
  nodup : s.told.Nodup
  keeps : ∀ t ∈ s.told, s.keeps t = true

/-- The records of a table tell of no other one, and of that one once. -/
theorem filterMap_table?_records (g : Grammar) (h : g.IsContextFree) (t : Table) :
    (t.records g h).filterMap LogRecord.table? = if t = .first then [] else [t] := by
  cases t with
  | first => rfl
  | follow => rfl
  | automaton => rfl
  | actions =>
    have hconflicts (l : List Conflict) : (l.map fun c =>
        LogRecord.conflict c.state c.candidates.length).filterMap LogRecord.table? = [] := by
      simp [List.filterMap_map, List.filterMap_eq_nil_iff, LogRecord.table?]
    rw [Table.records, ActionTable.records, List.filterMap_append, hconflicts]
    rfl

theorem told_put (g : Grammar) (h : g.IsContextFree) (s : Session) (t : Table) :
    (s.put g h t).told = s.told ++ if t = .first then [] else [t] := by
  rw [told, log_put, List.filterMap_append, filterMap_table?_records]
  rfl

theorem IsToldOnce.put (htold : s.IsToldOnce) (ht : s.keeps t = false) :
    (s.put g h t).IsToldOnce := by
  have hnew : t ∉ s.told := by
    intro hmem
    simpa [ht] using htold.keeps t hmem
  refine ⟨?_, ?_⟩
  · rw [told_put]
    split
    · simpa using htold.nodup
    · refine List.nodup_append.2 ⟨htold.nodup, by simp, ?_⟩
      intro t' ht' other hother he
      rw [List.mem_singleton.1 hother] at he
      exact hnew (he ▸ ht')
  · intro t' ht'
    rw [told_put, List.mem_append] at ht'
    rw [keeps_put]
    rcases ht' with ht' | ht'
    · simp [htold.keeps t' ht']
    · have he : t' = t := by
        split at ht'
        · simp at ht'
        · exact List.mem_singleton.1 ht'
      simp [he]

theorem IsToldOnce.fill (htold : s.IsToldOnce) : (s.fill g h t).IsToldOnce := by
  match hkept : s.keeps t with
  | true => rwa [fill_of_keeps hkept]
  | false =>
    rw [fill_of_not_keeps hkept]
    exact htold.put hkept

theorem isToldOnce_new (g : Grammar) : IsToldOnce { grammar := g } :=
  ⟨List.nodup_nil, fun _ ht => absurd ht List.not_mem_nil⟩

theorem isToldOnce_after (g : Grammar) (calls : List Call) : (after g calls).IsToldOnce := by
  by_cases h : g.IsContextFree
  · rw [after_eq_foldl_fill h]
    exact foldl_fill_induction (fun _ _ htold => htold.fill) (isToldOnce_new g) _
  · rw [after_eq_new h]
    exact isToldOnce_new g

/-- Two places of the log that tell of one table are the same. -/
theorem IsToldOnce.eq_of_table? (htold : s.IsToldOnce) {i j : Nat} {r r' : LogRecord}
    (hi : s.log[i]? = some r) (hj : s.log[j]? = some r') (hr : r.table? = some t)
    (hr' : r'.table? = some t) : i = j := by
  have hne := List.pairwise_iff_getElem.1 (List.pairwise_filterMap.1 htold.nodup)
  obtain ⟨hilt, rfl⟩ := List.getElem?_eq_some_iff.1 hi
  obtain ⟨hjlt, rfl⟩ := List.getElem?_eq_some_iff.1 hj
  rcases Nat.lt_trichotomy i j with hlt | heq | hlt
  · exact absurd rfl (hne i j hilt hjlt hlt t hr t hr')
  · exact heq
  · exact absurd rfl (hne j i hjlt hilt hlt t hr' t hr)

/-- Whether the log has one record at most of each computation. -/
structure TellsOnce (log : List LogRecord) : Prop where
  follow : ∀ i j n n' : ℕ, log[i]? = some (.follow n) → log[j]? = some (.follow n') → i = j
  automaton : ∀ i j n m n' m' : ℕ, log[i]? = some (.automaton n m) →
    log[j]? = some (.automaton n' m') → i = j
  actionTable : ∀ i j n m k n' m' k' : ℕ, log[i]? = some (.actionTable n m k) →
    log[j]? = some (.actionTable n' m' k') → i = j

theorem IsToldOnce.tellsOnce (htold : s.IsToldOnce) : TellsOnce s.log where
  follow _ _ _ _ hi hj := htold.eq_of_table? hi hj rfl rfl
  automaton _ _ _ _ _ _ hi hj := htold.eq_of_table? hi hj rfl rfl
  actionTable _ _ _ _ _ _ _ _ hi hj := htold.eq_of_table? hi hj rfl rfl

theorem nodup_tables (k : Call) : k.tables.Nodup := by
  cases k <;> decide

theorem log_after_concat (h : g.IsContextFree) (calls : List Call) (k : Call) :
    (after g (calls ++ [k])).log = (after g calls).log ++
      (k.tables.filter (· ∉ calls.flatMap Call.tables)).flatMap (Table.records g h) := by
  have hkept (t : Table) : (!(after g calls).keeps t) = decide (t ∉ calls.flatMap Call.tables) := by
    rw [keeps_after h, decide_not]
  obtain ⟨hgrammar, hcoherent⟩ := isCoherent_after g calls
  rw [after_concat, run_query h k hgrammar hcoherent]
  dsimp only
  rw [log_foldl_fill (nodup_tables k), List.filter_congr fun t _ => hkept t]

/-! ## Calls after calls -/

/-- **What has been asked before does not matter.** After any calls, the next one is answered as by
    a grammar that was just built from the same parts. The tables that the calls took are kept, and
    no other ones. The next call tells of the tables that it takes and that are not kept yet, in the
    order in which they are computed, so no computation is told of twice, and of each table it tells
    what has to be told. When the grammar is not context-free the call is refused, and nothing
    changes. -/
theorem run_query_after (g : Grammar) (calls : List Call) (k : Call) :
    (∃ fresh, Grammar.ofParts g.toParts = .ok fresh ∧
      (k.query.run (after g calls)).1 = fresh.answer k.query) ∧
    (∀ h : g.IsContextFree, KeepsTables g h (calls.flatMap Call.tables) (after g calls) ∧
      RecordsTables g h (Table.records g h) ∧
      (after g (calls ++ [k])).log = (after g calls).log ++
        (k.tables.filter (· ∉ calls.flatMap Call.tables)).flatMap (Table.records g h)) ∧
    (k = .first ∨ k = .augmented → (after g (calls ++ [k])).log = (after g calls).log) ∧
    TellsOnce (after g calls).log ∧
    (∀ r : LogRecord, r.level = .trace ↔ ∃ id n, r = .conflict id n) ∧
    (¬g.IsContextFree → k ≠ .clone →
      k.query.run (after g calls) = (.error (.notContextFree g.narrowestClass), after g calls)) := by
  obtain ⟨hgrammar, hcoherent⟩ := isCoherent_after g calls
  have hanswer : (k.query.run (after g calls)).1 = g.answer k.query :=
    (answers_query g k _ hgrammar hcoherent).1
  refine ⟨⟨g, g.ofParts_toParts, hanswer⟩,
    fun h => ⟨keepsTables_after h calls, recordsTables g h, log_after_concat h calls k⟩, ?_,
    (isToldOnce_after g calls).tellsOnce, fun _ => LogRecord.level_eq_trace_iff,
    fun h hk => run_query_error h hk hgrammar⟩
  intro hquiet
  by_cases h : g.IsContextFree
  · rw [log_after_concat h]
    rcases hquiet with rfl | rfl
    · simp [Call.tables, Table.records, List.filter_cons]
    · simp [Call.tables]
  · rw [after_eq_new h, after_eq_new h]

/-- Everything is told once, although the ACTION table is refused and asked for again. -/
example : (after .pairs [.follow, .actionTable, .clone, .actionTable]).log =
    [.follow 1, .automaton 5 9, .conflict 4 2, .conflict 4 2, .actionTable 5 14 2] := by
  decide +kernel

end Session

end ShiftReduce
