import Backchain.Proofs.Session.Reachable

/-!
Programs clause by clause.

A clause is taken and stored, or it is refused and leaves the session as it was. A program is taken as
its clauses are, one after another up to the first that is refused, so it may be split anywhere, and a
program that fails has stored exactly the facts and rules before the clause it fails at.
-/
set_option autoImplicit false

namespace Backchain

/-! ## What clauses store -/

namespace Clause

/-- The fact that a clause stores. -/
def fact? : Clause → Option Predicate
  | .fact predicate => some predicate
  | _ => none

/-- The rule that a clause stores, if its body is a goal. -/
def rule? : Clause → Option Rule
  | .rule head body => (Rule.ofBody head body).toOption
  | _ => none

end Clause

namespace Database

def store (database : Database) (clause : Clause) : Database :=
  match clause.fact?, clause.rule? with
  | some fact, _ => database.addFact fact
  | none, some rule => database.addRule rule
  | none, none => database

def storeAll (database : Database) (program : Program) : Database :=
  program.foldl store database

theorem facts_store (database : Database) (clause : Clause) :
    (database.store clause).facts.toList = database.facts.toList ++ clause.fact?.toList := by
  cases clause with
  | fact fact => simp [store, Clause.fact?, addFact]
  | rule head body => cases made : Rule.ofBody head body <;>
      simp [store, Clause.fact?, Clause.rule?, made, Except.toOption, addRule]
  | query goal => simp [store, Clause.fact?, Clause.rule?]

theorem rules_store (database : Database) (clause : Clause) :
    (database.store clause).rules.toList = database.rules.toList ++ clause.rule?.toList := by
  cases clause with
  | fact fact => simp [store, Clause.fact?, Clause.rule?, addFact]
  | rule head body => cases made : Rule.ofBody head body <;>
      simp [store, Clause.fact?, Clause.rule?, made, Except.toOption, addRule]
  | query goal => simp [store, Clause.fact?, Clause.rule?]

theorem facts_storeAll (database : Database) (program : Program) :
    (database.storeAll program).facts.toList =
      database.facts.toList ++ program.filterMap Clause.fact? := by
  induction program generalizing database with
  | nil => simp [storeAll]
  | cons clause program ih =>
    have later := ih (database.store clause)
    rw [facts_store] at later
    rw [storeAll, List.foldl_cons, ← storeAll, later, List.append_assoc]
    cases stored : clause.fact? <;> simp [stored]

theorem rules_storeAll (database : Database) (program : Program) :
    (database.storeAll program).rules.toList =
      database.rules.toList ++ program.filterMap Clause.rule? := by
  induction program generalizing database with
  | nil => simp [storeAll]
  | cons clause program ih =>
    have later := ih (database.store clause)
    rw [rules_store] at later
    rw [storeAll, List.foldl_cons, ← storeAll, later, List.append_assoc]
    cases stored : clause.rule? <;> simp [stored]

end Database

namespace Session

/-! ## Clauses one by one -/

/-- The results of clauses taken one by one, whatever comes of each. -/
def results (session : Session) : Program → List (Except Halt (Option Outcome))
  | [] => []
  | clause :: clauses => (session.accept clause).1 :: (session.accept clause).2.results clauses

/-- The session after clauses taken one by one, whatever comes of each. -/
def afterEach (session : Session) : Program → Session
  | [] => session
  | clause :: clauses => (session.accept clause).2.afterEach clauses

/-- Of some clauses taken one by one and the clause after them, the last is the first refused. -/
structure RefusesAt (session : Session) (before : Program) (clause : Clause) (halt : Halt) :
    Prop where
  taken : ∀ result ∈ session.results before, ∃ outcome, result = .ok outcome
  refused : ((session.afterEach before).accept clause).1 = .error halt

def storing (session : Session) (program : Program) : Session :=
  { session with database := session.database.storeAll program }

theorem accept_cases (session : Session) (clause : Clause) :
    (∃ halt, session.accept clause = (.error halt, session)) ∨
      ∃ outcome, session.accept clause = (.ok outcome, session.storing [clause]) := by
  cases clause with
  | fact fact =>
    rw [accept, storeFact]
    cases checkNames fact.args with
    | error cause => exact .inl ⟨_, rfl⟩
    | ok => exact .inr ⟨none, rfl⟩
  | rule head body =>
    rw [accept, storeRule]
    cases checkNames (head.args ++ [body]) with
    | error cause => exact .inl ⟨_, rfl⟩
    | ok =>
      cases made : Rule.ofBody head body with
      | error cause => exact .inl ⟨_, rfl⟩
      | ok rule =>
        refine .inr ⟨none, ?_⟩
        simp [stored, storing, Database.storeAll, Database.store, Clause.fact?, Clause.rule?, made,
          Except.toOption]
  | query goal =>
    rw [accept]
    cases session.query goal with
    | error halt => exact .inl ⟨_, rfl⟩
    | ok outcome => exact .inr ⟨some outcome, rfl⟩

theorem accept_of_error {session : Session} {clause : Clause} {halt : Halt}
    (refused : (session.accept clause).1 = .error halt) :
    session.accept clause = (.error halt, session) := by
  rcases session.accept_cases clause with ⟨cause, same⟩ | ⟨outcome, same⟩
  · rw [same] at refused
    rw [same, Except.error.inj refused]
  · rw [same] at refused
    cases refused

theorem accept_of_ok {session : Session} {clause : Clause} {outcome : Option Outcome}
    (taken : (session.accept clause).1 = .ok outcome) :
    session.accept clause = (.ok outcome, session.storing [clause]) := by
  rcases session.accept_cases clause with ⟨cause, same⟩ | ⟨found, same⟩
  · rw [same] at taken
    cases taken
  · rw [same] at taken
    rw [same, Except.ok.inj taken]

/-! ## Programs -/

/-- An earlier outcome counts only if a program has none. -/
theorem acceptAll_eq (session : Session) (latest : Option Outcome) (program : Program) :
    session.acceptAll latest program =
      ((session.run program).1.map fun outcome => outcome <|> latest, (session.run program).2) := by
  induction program generalizing session latest with
  | nil => rfl
  | cons clause clauses ih =>
    rw [run, acceptAll, acceptAll]
    obtain ⟨result, next⟩ := session.accept clause
    cases result with
    | error halt => rfl
    | ok outcome =>
      simp only [ih next (outcome <|> latest), ih next (outcome <|> none)]
      cases (next.run clauses).1 with
      | error halt => rfl
      | ok found => simp [Except.map, Option.or_assoc]

theorem acceptAll_append (session : Session) (latest : Option Outcome) (first second : Program) :
    session.acceptAll latest (first ++ second) =
      match session.acceptAll latest first with
      | (.error halt, next) => (.error halt, next)
      | (.ok outcome, next) => next.acceptAll outcome second := by
  induction first generalizing session latest with
  | nil => rfl
  | cons clause clauses ih =>
    rw [List.cons_append, acceptAll, acceptAll]
    obtain ⟨result, next⟩ := session.accept clause
    cases result with
    | error halt => rfl
    | ok outcome => exact ih next (outcome <|> latest)

theorem run_append (session : Session) (first second : Program) :
    session.run (first ++ second) =
      match session.run first with
      | (.error halt, next) => (.error halt, next)
      | (.ok outcome, next) =>
        ((next.run second).1.map fun later => later <|> outcome, (next.run second).2) := by
  rw [run, acceptAll_append, ← run]
  obtain ⟨result, next⟩ := session.run first
  cases result with
  | error halt => rfl
  | ok outcome => exact acceptAll_eq next outcome second

theorem storing_storing (session : Session) (first second : Program) :
    (session.storing first).storing second = session.storing (first ++ second) := by
  simp [storing, Database.storeAll]

theorem run_singleton (session : Session) (clause : Clause) :
    session.run [clause] = session.accept clause := by
  rw [run, acceptAll]
  obtain ⟨result, next⟩ := session.accept clause
  cases result with
  | error halt => rfl
  | ok outcome => simp [acceptAll]

theorem run_cons_of_ok {session : Session} {clause : Clause} {outcome : Option Outcome}
    (taken : (session.accept clause).1 = .ok outcome) (clauses : Program) :
    session.run (clause :: clauses) =
      (((session.storing [clause]).run clauses).1.map fun later => later <|> outcome,
        ((session.storing [clause]).run clauses).2) := by
  rw [← List.singleton_append, run_append, run_singleton, accept_of_ok taken]

theorem run_of_refusesAt {session : Session} {before : Program} {clause : Clause} {halt : Halt}
    (refuses : session.RefusesAt before clause halt) (later : Program) :
    session.run (before ++ clause :: later) = (.error halt, session.storing before) := by
  obtain ⟨taken, refused⟩ := refuses
  induction before generalizing session with
  | nil =>
    rw [afterEach] at refused
    rw [List.nil_append, ← List.singleton_append, run_append, run_singleton,
      accept_of_error refused]
    rfl
  | cons first before ih =>
    obtain ⟨⟨outcome, here⟩, others⟩ := List.forall_mem_cons.mp taken
    rw [accept_of_ok here] at others
    rw [afterEach, accept_of_ok here] at refused
    rw [List.cons_append, run_cons_of_ok here, ih others refused, storing_storing]
    rfl

theorem exists_refusesAt {session : Session} {program : Program} {halt : Halt}
    (failed : (session.run program).1 = .error halt) :
    ∃ before clause later, program = before ++ clause :: later ∧
      session.RefusesAt before clause halt := by
  induction program generalizing session with
  | nil => cases failed
  | cons first clauses ih =>
    rcases session.accept_cases first with ⟨cause, refused⟩ | ⟨outcome, taken⟩
    · rw [← List.singleton_append, run_append, run_singleton, refused] at failed
      cases failed
      exact ⟨[], first, clauses, rfl, ⟨List.forall_mem_nil _, by rw [afterEach, refused]⟩⟩
    · rw [run_cons_of_ok (congrArg Prod.fst taken)] at failed
      cases ended : ((session.storing [first]).run clauses).1 with
      | ok outcome =>
        rw [ended] at failed
        cases failed
      | error cause =>
        rw [ended] at failed
        cases failed
        obtain ⟨before, clause, later, rfl, refuses⟩ := ih ended
        refine ⟨first :: before, clause, later, rfl, ⟨?_, ?_⟩⟩
        · rw [results, taken]
          exact List.forall_mem_cons.mpr ⟨⟨outcome, rfl⟩, refuses.taken⟩
        · rw [afterEach, taken]
          exact refuses.refused

/-- A program fails with what is said of the first clause that is refused, and has then stored the
clauses before it. -/
theorem run_eq_error_iff {session next : Session} {program : Program} {halt : Halt} :
    session.run program = (.error halt, next) ↔
      ∃ before clause later, program = before ++ clause :: later ∧
        session.RefusesAt before clause halt ∧ next = session.storing before := by
  constructor
  · intro failed
    obtain ⟨before, clause, later, rfl, refuses⟩ := exists_refusesAt (congrArg Prod.fst failed)
    rw [run_of_refusesAt refuses, Prod.mk.injEq] at failed
    exact ⟨before, clause, later, rfl, refuses, failed.2.symm⟩
  · rintro ⟨before, clause, later, rfl, refuses, rfl⟩
    exact run_of_refusesAt refuses later

theorem run_eq_ok {session next : Session} {program : Program} {outcome : Option Outcome}
    (ended : session.run program = (.ok outcome, next)) : next = session.storing program := by
  induction program generalizing session next outcome with
  | nil => exact (congrArg Prod.snd ended).symm
  | cons first clauses ih =>
    rcases session.accept_cases first with ⟨cause, refused⟩ | ⟨found, taken⟩
    · rw [← List.singleton_append, run_append, run_singleton, refused] at ended
      cases ended
    · rw [run_cons_of_ok (congrArg Prod.fst taken), Prod.mk.injEq] at ended
      obtain ⟨answered, rfl⟩ := ended
      cases later : (session.storing [first]).run clauses with
      | mk result next =>
        rw [later] at answered
        cases result with
        | error halt => cases answered
        | ok outcome => exact (ih later).trans (storing_storing session [first] clauses)

end Session

/-! ## What is stored -/

theorem not_mark_mem_of_not_reserved {name : String} (free : isReserved name = false) :
    '#' ∉ name.toList := by
  simpa [isReserved, copyMark] using free

namespace Database

variable {database : Database}

theorem Built.store (built : database.Built) (clause : Clause) : (database.store clause).Built := by
  unfold Database.store
  split
  · exact .fact built _
  · exact .rule built _
  · exact built

theorem Built.storeAll (built : database.Built) (program : Program) :
    (database.storeAll program).Built := by
  induction program generalizing database with
  | nil => exact built
  | cons clause program ih => exact ih (built.store clause)

theorem Built.factsOf_storeAll (built : database.Built) (program : Program) (signature : Signature) :
    (database.storeAll program).factsOf signature = database.factsOf signature ++
      (program.filterMap Clause.fact?).filter fun fact => fact.signature = signature := by
  rw [(built.storeAll program).indexed.factsOf_eq_filter, built.indexed.factsOf_eq_filter,
    facts_storeAll, List.filter_append]

theorem Built.rulesOf_storeAll (built : database.Built) (program : Program) (signature : Signature) :
    (database.storeAll program).rulesOf signature = database.rulesOf signature ++
      (program.filterMap Clause.rule?).filter fun rule => rule.head.signature = signature := by
  rw [(built.storeAll program).indexed.rulesOf_eq_filter, built.indexed.rulesOf_eq_filter,
    rules_storeAll, List.filter_append]

theorem Accepted.not_mark_mem_of_fact (accepted : database.Accepted) {fact : Predicate}
    (stored : fact ∈ database.facts) : ∀ name ∈ fact.occurrences, '#' ∉ name.toList :=
  fun name occurs => not_mark_mem_of_not_reserved
    (Predicate.isUnmarked_iff.mp (accepted.unmarked.1 fact stored) name occurs)

/-- The variables of a rule are those of its head and of its goals, and its body has no others. -/
theorem Accepted.not_mark_mem_of_rule (accepted : database.Accepted) {rule : Rule}
    (stored : rule ∈ database.rules) :
    ∀ name ∈ rule.head.occurrences ++ rule.body.occurrences, '#' ∉ name.toList := by
  obtain ⟨onHead, onGoals⟩ := accepted.unmarked.2 rule stored
  intro name occurs
  apply not_mark_mem_of_not_reserved
  rw [Term.occurrences_goals (accepted.flat rule stored), List.mem_append, List.mem_flatMap] at occurs
  rcases occurs with inHead | ⟨goal, member, inGoal⟩
  · exact Predicate.isUnmarked_iff.mp onHead name inHead
  · exact Predicate.isUnmarked_iff.mp (onGoals goal member) name inGoal

end Database

namespace Session

/-- A program may be split anywhere. If it fails, it fails at the first clause that is refused when its
clauses are taken one by one, and the facts and rules before that clause are stored, in order and in the
lookups too. Queries, refused clauses and unreadable source change nothing. What is stored has goals
that are those of its body and variables without the mark of rule copies. -/
theorem run_clause_by_clause (session : Session) :
    (∀ first second : Program, session.run (first ++ second) =
      match session.run first with
      | (.error halt, next) => (.error halt, next)
      | (.ok outcome, next) =>
        ((next.run second).1.map fun later => later <|> outcome, (next.run second).2)) ∧
    (∀ (program : Program) (halt : Halt) (next : Session),
      session.run program = (.error halt, next) ↔
        ∃ before clause later, program = before ++ clause :: later ∧
          session.RefusesAt before clause halt ∧ next = session.storing before) ∧
    (∀ (program : Program) (outcome : Option Outcome) (next : Session),
      session.run program = (.ok outcome, next) → next = session.storing program) ∧
    (∀ program : Program,
      (session.storing program).database.facts.toList =
        session.database.facts.toList ++ program.filterMap Clause.fact? ∧
      (session.storing program).database.rules.toList =
        session.database.rules.toList ++ program.filterMap Clause.rule?) ∧
    (∀ goal : Term, (session.accept (.query goal)).2 = session) ∧
    (∀ (clause : Clause) (halt : Halt), (session.accept clause).1 = .error halt →
      (session.accept clause).2 = session) ∧
    (∀ (source : String) (cause : Error), Source.program source = .error cause →
      session.runSource source = (.error (.error cause), session)) ∧
    (session.Reachable →
      (∀ (program : Program) (signature : Signature),
        (session.storing program).database.factsOf signature =
          session.database.factsOf signature ++
            (program.filterMap Clause.fact?).filter (fun fact => fact.signature = signature) ∧
        (session.storing program).database.rulesOf signature =
          session.database.rulesOf signature ++
            (program.filterMap Clause.rule?).filter fun rule => rule.head.signature = signature) ∧
      (∀ fact ∈ session.database.facts, ∀ name ∈ fact.occurrences, '#' ∉ name.toList) ∧
      ∀ rule ∈ session.database.rules, rule.body.goals = .ok rule.goals ∧
        ∀ name ∈ rule.head.occurrences ++ rule.body.occurrences, '#' ∉ name.toList) := by
  refine ⟨session.run_append, fun _ _ _ => run_eq_error_iff, fun _ _ _ => run_eq_ok, ?stores,
    fun _ => rfl, ?refused, ?unread, ?reachable⟩
  case stores =>
    exact fun program => ⟨session.database.facts_storeAll program,
      session.database.rules_storeAll program⟩
  case refused =>
    intro clause halt refused
    rw [accept_of_error refused]
  case unread =>
    intro source cause unread
    rw [runSource, unread]
  case reachable =>
    intro reachable
    have accepted := reachable.accepted
    refine ⟨?_, fun fact stored => accepted.not_mark_mem_of_fact stored, ?_⟩
    · exact fun program signature => ⟨accepted.built.factsOf_storeAll program signature,
        accepted.built.rulesOf_storeAll program signature⟩
    · exact fun rule stored => ⟨accepted.flat rule stored, accepted.not_mark_mem_of_rule stored⟩

namespace Ferries

def ferry (first second : Term) : Predicate :=
  ⟨"ferry", [first, second]⟩

def session : Session :=
  ({ limits := .ofDepth 4 : Session }.run [.fact (ferry (.atom "a") (.atom "b"))]).2

/-- A fact and a query, before a rule with an atom in its body. -/
def program : Program :=
  [.fact (ferry (.atom "b") (.var "Z")), .query (ferry (.atom "a") (.var "Y")).toTerm,
    .rule ⟨"trip", [.var "X"]⟩ (.conj (ferry (.var "X") (.atom "c")).toTerm (.atom "sail")),
    .fact (ferry (.atom "c") (.atom "d"))]

end Ferries

open Ferries in
theorem run_clause_by_clause_ferries :
    let halt : Halt := .error (.malformedRule "trip(X)" .atom)
    (Ferries.session.run program).1 = .error halt ∧
      (∃ before clause later, program = before ++ clause :: later ∧
        Ferries.session.RefusesAt before clause halt ∧
        (Ferries.session.run program).2 = Ferries.session.storing before) ∧
      Ferries.session.runSource "ferry(a, b). ferry(" =
        (.error (.error (.unreadable 1 14 "ferry(")), Ferries.session) ∧
      (Ferries.session.storing program).database.factsOf ⟨"ferry", 2⟩ =
        [ferry (.atom "a") (.atom "b")] ++
          [ferry (.atom "b") (.var "Z"), ferry (.atom "c") (.atom "d")] := by
  intro halt
  have reachable : Ferries.session.Reachable := .run (.start _) _
  obtain ⟨-, fails, -, -, -, -, unread, kept⟩ := run_clause_by_clause Ferries.session
  have failed : (Ferries.session.run program).1 = .error halt := by rfl
  have unreadable : Source.program "ferry(a, b). ferry(" = .error (.unreadable 1 14 "ferry(") := by
    rfl
  exact ⟨failed, (fails program halt _).mp (Prod.ext failed rfl), unread _ _ unreadable,
    ((kept reachable).1 program ⟨"ferry", 2⟩).1.trans (by decide)⟩

end Session

end Backchain
