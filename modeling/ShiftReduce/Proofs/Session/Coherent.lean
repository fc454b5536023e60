import ShiftReduce.Session.Call

set_option autoImplicit false

/-! # Kept tables

A session keeps each table once it has been computed. Whatever has been asked before, the tables
that a session keeps are those of its grammar, so a question has one answer that depends on the
grammar alone, and all that it does to the session is to fill in the tables that it takes.

**`Session.run_actionTable`**: the answer to the question for the ACTION table is the table that is
built from the grammar, and afterwards the session keeps all four tables. -/

namespace ShiftReduce

namespace Query

/-- A question is answered by answering its parts one after the other, up to the first error. -/
theorem run_bind {α β : Type} (q : Query α) (f : α → Query β) (s : Session) :
    (q >>= f).run s =
      match (q.run s).1 with
      | .ok a => (f a).run (q.run s).2
      | .error e => (.error e, (q.run s).2) := by
  show ExceptT.bindCont f (q.run s).1 (q.run s).2 = _
  cases (q.run s).1 with
  | ok a => rfl
  | error e => rfl

variable {α β : Type} {q : Query α} {s s' : Session}

theorem run_bind_of_ok {a : α} (h : q.run s = (.ok a, s')) (f : α → Query β) :
    (q >>= f).run s = (f a).run s' := by
  rw [run_bind, h]

theorem run_bind_of_error {e : GrammarError} (h : q.run s = (.error e, s')) (f : α → Query β) :
    (q >>= f).run s = (.error e, s') := by
  rw [run_bind, h]

/-- A question that first looks at the session. -/
theorem run_get_bind (f : Session → Query α) (s : Session) :
    (get >>= f).run s = (f s).run s := rfl

theorem run_ofExcept (r : Except GrammarError α) (s : Session) :
    (ofExcept r : Query α).run s = (r, s) := by
  cases r with
  | ok a => rfl
  | error e => rfl

end Query

namespace Session

variable {α : Type} {g : Grammar} {h : g.IsContextFree} {s : Session} {t : Table}

/-- Each table that is kept is the grammar's own. -/
structure IsCoherent (s : Session) : Prop where
  first_eq : ∀ t, s.first? = some t → t = s.grammar.firstTable
  follow_eq : ∀ t, s.follow? = some t → t = s.grammar.followTable
  automaton_eq : ∀ a, s.automaton? = some a → ∃ h, a = .ofGrammar (s.grammar.augmented h)
  actions_eq : ∀ r, s.actions? = some r → ∃ h, r = ActionTable.build (s.grammar.tableSource h)

theorem isCoherent_new (g : Grammar) : IsCoherent { grammar := g } := by
  constructor <;> simp

/-! ## Filling in tables -/

def keeps (s : Session) : Table → Bool
  | .first => s.first?.isSome
  | .follow => s.follow?.isSome
  | .automaton => s.automaton?.isSome
  | .actions => s.actions?.isSome

/-- Keeps the grammar's own table, and tells of it. -/
def put (g : Grammar) (h : g.IsContextFree) (s : Session) (t : Table) : Session :=
  let told := { s with log := s.log ++ t.records g h }
  match t with
  | .first => { told with first? := some g.firstTable }
  | .follow => { told with follow? := some g.followTable }
  | .automaton => { told with automaton? := some (.ofGrammar (g.augmented h)) }
  | .actions => { told with actions? := some (ActionTable.build (g.tableSource h)) }

/-- The session with the table, which is computed only when it is not kept yet. -/
def fill (g : Grammar) (h : g.IsContextFree) (s : Session) (t : Table) : Session :=
  if s.keeps t then s else s.put g h t

theorem fill_of_keeps (hs : s.keeps t = true) : s.fill g h t = s := if_pos hs

theorem fill_of_not_keeps (hs : s.keeps t = false) : s.fill g h t = s.put g h t := by
  rw [fill, hs]
  rfl

theorem grammar_fill : (s.fill g h t).grammar = s.grammar := by
  unfold fill
  split
  · rfl
  · cases t <;> rfl

theorem IsCoherent.fill (hcoherent : s.IsCoherent) (hs : s.grammar = g) :
    (s.fill g h t).IsCoherent := by
  subst hs
  unfold Session.fill
  split
  · exact hcoherent
  · obtain ⟨hfirst, hfollow, hautomaton, hactions⟩ := hcoherent
    cases t with
    | first => exact ⟨fun _ ht => (Option.some.inj ht).symm, hfollow, hautomaton, hactions⟩
    | follow => exact ⟨hfirst, fun _ ht => (Option.some.inj ht).symm, hautomaton, hactions⟩
    | automaton => exact ⟨hfirst, hfollow, fun _ ht => ⟨h, (Option.some.inj ht).symm⟩, hactions⟩
    | actions => exact ⟨hfirst, hfollow, hautomaton, fun _ ht => ⟨h, (Option.some.inj ht).symm⟩⟩

theorem foldl_fill_induction {P : Session → Prop} (keep : ∀ s t, P s → P (s.fill g h t))
    (hs : P s) (tables : List Table) : P (tables.foldl (fill g h) s) := by
  induction tables generalizing s with
  | nil => exact hs
  | cons t rest ih => exact ih (keep s t hs)

/-! ## The tables of the grammar -/

theorem run_augmented (h : g.IsContextFree) (hs : s.grammar = g) :
    augmented.run s = (.ok (g.augmented h), s) := by
  subst hs
  have haugment : s.grammar.augment = .ok (s.grammar.augmented h) := dif_pos h
  rw [← haugment]
  exact Query.run_ofExcept s.grammar.augment s

theorem run_first (h : g.IsContextFree) (hs : s.grammar = g) (hcoherent : s.IsCoherent) :
    first.run s = (.ok g.firstTable, s.fill g h .first) := by
  unfold first
  rw [Query.run_bind_of_ok (run_augmented h hs), Query.run_get_bind]
  subst hs
  cases hfirst : s.first? with
  | some t =>
    obtain rfl := hcoherent.first_eq t hfirst
    rw [fill_of_keeps (by simp [keeps, hfirst])]
    rfl
  | none =>
    rw [fill_of_not_keeps (by simp [keeps, hfirst])]
    simp only [put, Table.records, List.append_nil]
    rfl

theorem run_follow (h : g.IsContextFree) (hs : s.grammar = g) (hcoherent : s.IsCoherent) :
    follow.run s = (.ok g.followTable, [.first, .follow].foldl (fill g h) s) := by
  unfold follow
  rw [Query.run_bind_of_ok (run_first h hs hcoherent), Query.run_get_bind]
  replace hcoherent := hcoherent.fill (h := h) (t := .first) hs
  replace hs : (s.fill g h .first).grammar = g := grammar_fill.trans hs
  simp only [List.foldl_cons, List.foldl_nil]
  generalize s.fill g h .first = s at hs hcoherent ⊢
  subst hs
  cases hfollow : s.follow? with
  | some t =>
    obtain rfl := hcoherent.follow_eq t hfollow
    rw [fill_of_keeps (by simp [keeps, hfollow])]
    rfl
  | none =>
    rw [fill_of_not_keeps (by simp [keeps, hfollow])]
    rfl

theorem run_automaton (h : g.IsContextFree) (hs : s.grammar = g) (hcoherent : s.IsCoherent) :
    automaton.run s = (.ok (.ofGrammar (g.augmented h)), s.fill g h .automaton) := by
  unfold automaton
  rw [Query.run_bind_of_ok (run_augmented h hs), Query.run_get_bind]
  subst hs
  cases hautomaton : s.automaton? with
  | some a =>
    obtain ⟨_, rfl⟩ := hcoherent.automaton_eq a hautomaton
    rw [fill_of_keeps (by simp [keeps, hautomaton])]
    rfl
  | none =>
    rw [fill_of_not_keeps (by simp [keeps, hautomaton])]
    rfl

theorem run_actionTable (h : g.IsContextFree) (hs : s.grammar = g) (hcoherent : s.IsCoherent) :
    actionTable.run s = (ActionTable.build (g.tableSource h),
      [.first, .follow, .automaton, .actions].foldl (fill g h) s) := by
  have hgrammar : ([.first, .follow].foldl (fill g h) s).grammar = g :=
    grammar_fill.trans (grammar_fill.trans hs)
  have hfollow : ([.first, .follow].foldl (fill g h) s).IsCoherent :=
    (hcoherent.fill hs).fill (grammar_fill.trans hs)
  unfold actionTable
  rw [Query.run_bind_of_ok (run_follow h hs hcoherent),
    Query.run_bind_of_ok (run_automaton h hgrammar hfollow), Query.run_get_bind]
  replace hcoherent := hfollow.fill (h := h) (t := .automaton) hgrammar
  replace hs : (Session.fill g h _ .automaton).grammar = g := grammar_fill.trans hgrammar
  simp only [List.foldl_cons, List.foldl_nil] at hs hcoherent ⊢
  generalize ((s.fill g h .first).fill g h .follow).fill g h .automaton = s at hs hcoherent ⊢
  subst hs
  cases hactions : s.actions? with
  | some r =>
    obtain ⟨_, rfl⟩ := hcoherent.actions_eq r hactions
    rw [fill_of_keeps (by simp [keeps, hactions])]
    exact Query.run_ofExcept _ s
  | none =>
    -- The answer is kept before it is given, so a refusal is kept as well.
    rw [fill_of_not_keeps (by simp [keeps, hactions])]
    exact Query.run_ofExcept _ (s.put s.grammar h .actions)

/-! ## Grammars that are not context-free -/

theorem run_augmented_error (h : ¬g.IsContextFree) (hs : s.grammar = g) :
    augmented.run s = (.error (.notContextFree g.narrowestClass), s) := by
  subst hs
  have haugment : s.grammar.augment = .error (.notContextFree s.grammar.narrowestClass) :=
    dif_neg h
  rw [← haugment]
  exact Query.run_ofExcept s.grammar.augment s

theorem run_first_error (h : ¬g.IsContextFree) (hs : s.grammar = g) :
    first.run s = (.error (.notContextFree g.narrowestClass), s) :=
  Query.run_bind_of_error (run_augmented_error h hs) _

theorem run_follow_error (h : ¬g.IsContextFree) (hs : s.grammar = g) :
    follow.run s = (.error (.notContextFree g.narrowestClass), s) :=
  Query.run_bind_of_error (run_first_error h hs) _

theorem run_automaton_error (h : ¬g.IsContextFree) (hs : s.grammar = g) :
    automaton.run s = (.error (.notContextFree g.narrowestClass), s) :=
  Query.run_bind_of_error (run_augmented_error h hs) _

theorem run_actionTable_error (h : ¬g.IsContextFree) (hs : s.grammar = g) :
    actionTable.run s = (.error (.notContextFree g.narrowestClass), s) :=
  Query.run_bind_of_error (run_follow_error h hs) _

/-! ## Answers -/

/-- Every coherent session about the grammar gives this answer, and stays such a session. -/
def Answers (g : Grammar) (q : Query α) (r : Except GrammarError α) : Prop :=
  ∀ s : Session, s.grammar = g → s.IsCoherent →
    (q.run s).1 = r ∧ (q.run s).2.grammar = g ∧ (q.run s).2.IsCoherent

theorem answers_of_run {q : Query α} {r : Except GrammarError α} (h : g.IsContextFree)
    (tables : List Table) (hq : ∀ s : Session, s.grammar = g → s.IsCoherent →
      q.run s = (r, tables.foldl (fill g h) s)) : Answers g q r := by
  intro s hs hcoherent
  rw [hq s hs hcoherent]
  refine ⟨rfl, foldl_fill_induction (P := fun s => s.grammar = g ∧ s.IsCoherent) ?_ ⟨hs, hcoherent⟩
    tables⟩
  exact fun _ _ hP => ⟨grammar_fill.trans hP.1, hP.2.fill hP.1⟩

theorem answers_of_run_error {q : Query α} {r : Except GrammarError α}
    (hq : ∀ s : Session, s.grammar = g → q.run s = (r, s)) : Answers g q r := by
  intro s hs hcoherent
  rw [hq s hs]
  exact ⟨rfl, hs, hcoherent⟩

theorem answers_first (h : g.IsContextFree) : Answers g first (.ok g.firstTable) :=
  answers_of_run h [.first] fun _ => run_first h

theorem answers_follow (h : g.IsContextFree) : Answers g follow (.ok g.followTable) :=
  answers_of_run h _ fun _ => run_follow h

end Session

/-! ## New sessions -/

namespace Grammar

variable {α : Type} {g : Grammar}

/-- The answer of a session in which nothing has been asked before. -/
def answer (g : Grammar) (q : Query α) : Except GrammarError α :=
  (q.run { grammar := g }).1

theorem answer_eq_of_answers {q : Query α} {r : Except GrammarError α}
    (h : Session.Answers g q r) : g.answer q = r :=
  (h { grammar := g } rfl (Session.isCoherent_new g)).1

theorem answer_automaton_eq_ok_iff {a : Automaton} : g.answer Session.automaton = .ok a ↔
    ∃ h, a = .ofGrammar (g.augmented h) := by
  unfold answer
  by_cases h : g.IsContextFree
  · rw [Session.run_automaton h rfl (Session.isCoherent_new g), Except.ok.injEq,
      exists_prop_of_true h, eq_comm]
  · rw [Session.run_automaton_error h rfl]
    simp [h]

theorem answer_actionTable (h : g.IsContextFree) :
    g.answer Session.actionTable = ActionTable.build (g.tableSource h) := by
  rw [answer, Session.run_actionTable h rfl (Session.isCoherent_new g)]

theorem answer_actionTable_eq_ok_iff {table : ActionTable} :
    g.answer Session.actionTable = .ok table ↔
      ∃ h, ActionTable.build (g.tableSource h) = .ok table := by
  by_cases h : g.IsContextFree
  · rw [answer_actionTable h, exists_prop_of_true h]
  · rw [answer, Session.run_actionTable_error h rfl]
    simp [h]

end Grammar

end ShiftReduce
