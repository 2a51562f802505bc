import Backchain.Proofs.Term.Leaves
import Backchain.Session

/-!
The bracketing of conjunctions.

A query depends on the leaves of its goal alone. A rule keeps the body that it was made of, but a search
reads only its head and its goals. So two sessions that differ in the bodies of their rules, and in
nothing else, give the same results, and they stay alike whatever they are given. Two rules whose bodies
have the same leaves differ in no more than that.
-/
set_option autoImplicit false

namespace Backchain

/-! ## Searches read no bodies -/

/-- The rule without the body that it was made of; its goals say what the body asks for. -/
def Rule.bodiless (rule : Rule) : Rule :=
  { rule with body := rule.head.toTerm }

namespace Database

/-- The database without the bodies of its rules. -/
def bodiless (database : Database) : Database :=
  { database with rules := database.rules.map Rule.bodiless }

variable (database : Database)

theorem rulesOf_bodiless (signature : Signature) :
    database.bodiless.rulesOf signature = (database.rulesOf signature).map Rule.bodiless := by
  simp only [rulesOf, bodiless, placesOf, List.map_filterMap, Array.getElem?_map]

theorem bodiless_addFact (fact : Predicate) :
    (database.addFact fact).bodiless = database.bodiless.addFact fact :=
  rfl

theorem bodiless_addRule (rule : Rule) :
    (database.addRule rule).bodiless = database.bodiless.addRule rule.bodiless := by
  have number : (database.rules.map Rule.bodiless).size = database.rules.size := Array.size_map
  simp only [bodiless, addRule, Array.map_push, number]
  rfl

end Database

section

variable {σ α β : Type}

theorem tryEach_map (attempt : β → Progress σ → Ending × Progress σ) (change : α → β)
    (candidates : List α) :
    tryEach attempt (candidates.map change) =
      tryEach (fun candidate => attempt (change candidate)) candidates := by
  induction candidates with
  | nil => rfl
  | cons candidate candidates ih =>
    funext progress
    rw [List.map_cons, tryEach, tryEach, ih]

theorem tryEach_useRule_bodiless (limits : Limits) (expansions : Nat)
    (goOn : List Predicate → Progress σ → Ending × Progress σ) (goal : Predicate)
    (rules : List Rule) :
    tryEach (useRule limits expansions goOn goal) (rules.map Rule.bodiless) =
      tryEach (useRule limits expansions goOn goal) rules :=
  tryEach_map _ Rule.bodiless rules

theorem searchGoals_bodiless (database : Database) (limits : Limits) (visitor : Visitor σ)
    (expansions : Nat) (expand : List Predicate → Progress σ → Ending × Progress σ)
    (goals : List Predicate) :
    searchGoals database.bodiless limits visitor expansions expand goals =
      searchGoals database limits visitor expansions expand goals := by
  induction goals with
  | nil => rfl
  | cons goal rest ih =>
    funext progress
    simp only [searchGoals, ih, database.rulesOf_bodiless, tryEach_useRule_bodiless]
    rfl

/-- The search reads heads and goals of rules, and no bodies. -/
theorem search_bodiless (database : Database) (limits : Limits) (visitor : Visitor σ)
    (fuel expansions : Nat) :
    search database.bodiless limits visitor fuel expansions =
      search database limits visitor fuel expansions := by
  induction fuel generalizing expansions with
  | zero =>
    funext goals progress
    rw [search, search, searchGoals_bodiless]
  | succ fuel ih =>
    funext goals progress
    rw [search, search, searchGoals_bodiless, ih]

end

theorem search_of_bodiless {σ : Type} {database other : Database}
    (same : database.bodiless = other.bodiless) (limits : Limits) (visitor : Visitor σ)
    (fuel expansions : Nat) :
    search database limits visitor fuel expansions = search other limits visitor fuel expansions := by
  rw [← search_bodiless, same, search_bodiless]

theorem Rule.ofBody_of_leaves {body other : Term} (head : Predicate)
    (same : body.leaves = other.leaves) :
    (Rule.ofBody head body).map Rule.bodiless = (Rule.ofBody head other).map Rule.bodiless := by
  rw [ofBody, ofBody, Term.goals_of_leaves same]
  cases other.goals <;> rfl

/-! ## Sessions that differ in bodies only -/

namespace Session

/-- The sessions differ in nothing but the bodies of their rules. -/
structure Alike (left right : Session) : Prop where
  database : left.database.bodiless = right.database.bodiless
  limits : left.limits = right.limits

variable {left right : Session} {body other : Term}

theorem Alike.refl (session : Session) : session.Alike session :=
  ⟨rfl, rfl⟩

theorem Alike.query_eq (alike : left.Alike right) (goal : Term) :
    left.query goal = right.query goal := by
  simp only [query, Search.each, Search.first?, Search.collect, search_of_bodiless alike.database,
    alike.limits]

theorem query_of_leaves (session : Session) (same : body.leaves = other.leaves) :
    session.query body = session.query other := by
  have names := Term.checkNames_of_leaves same []
  rw [List.nil_append, List.nil_append] at names
  simp only [query, names, Term.goals_of_leaves same, Term.isGround_of_leaves same,
    Term.vars_of_leaves same]

theorem Alike.addFact (alike : left.Alike right) (fact : Predicate) :
    Alike { left with database := left.database.addFact fact }
      { right with database := right.database.addFact fact } := by
  refine ⟨?_, alike.limits⟩
  rw [Database.bodiless_addFact, alike.database, ← Database.bodiless_addFact]

theorem Alike.addRule (alike : left.Alike right) {rule another : Rule}
    (same : rule.bodiless = another.bodiless) :
    Alike { left with database := left.database.addRule rule }
      { right with database := right.database.addRule another } := by
  refine ⟨?_, alike.limits⟩
  rw [Database.bodiless_addRule, alike.database, same, ← Database.bodiless_addRule]

/-- A rule is refused alike or stored alike, whichever way its body is bracketed. -/
theorem Alike.accept_rule (alike : left.Alike right) (head : Predicate)
    (same : body.leaves = other.leaves) :
    (left.accept (.rule head body)).1 = (right.accept (.rule head other)).1 ∧
      (left.accept (.rule head body)).2.Alike (right.accept (.rule head other)).2 := by
  have made := Rule.ofBody_of_leaves head same
  simp only [accept, storeRule, Term.checkNames_of_leaves same head.args]
  cases checkNames (head.args ++ [other]) with
  | error cause => exact ⟨rfl, alike⟩
  | ok =>
    cases first : Rule.ofBody head body with
    | error cause =>
      cases second : Rule.ofBody head other with
      | error another =>
        rw [first, second] at made
        cases made
        exact ⟨rfl, alike⟩
      | ok rule => simp [first, second, Except.map] at made
    | ok rule =>
      cases second : Rule.ofBody head other with
      | error cause => simp [first, second, Except.map] at made
      | ok another =>
        rw [first, second] at made
        exact ⟨rfl, alike.addRule (Except.ok.inj made)⟩

theorem Alike.accept (alike : left.Alike right) (clause : Clause) :
    (left.accept clause).1 = (right.accept clause).1 ∧
      (left.accept clause).2.Alike (right.accept clause).2 := by
  cases clause with
  | fact fact =>
    simp only [Session.accept, storeFact]
    cases checkNames fact.args with
    | error cause => exact ⟨rfl, alike⟩
    | ok => exact ⟨rfl, alike.addFact fact⟩
  | rule head body => exact alike.accept_rule head rfl
  | query goal => exact ⟨congrArg (Except.map some) (alike.query_eq goal), alike⟩

theorem Alike.acceptAll (alike : left.Alike right) (latest : Option Outcome) (program : Program) :
    (left.acceptAll latest program).1 = (right.acceptAll latest program).1 ∧
      (left.acceptAll latest program).2.Alike (right.acceptAll latest program).2 := by
  induction program generalizing left right latest with
  | nil => exact ⟨rfl, alike⟩
  | cons clause clauses ih =>
    obtain ⟨same, after⟩ := alike.accept clause
    rw [Session.acceptAll, Session.acceptAll]
    generalize left.accept clause = taken at same after
    generalize right.accept clause = takenOther at same after
    obtain ⟨result, next⟩ := taken
    obtain ⟨resultOther, nextOther⟩ := takenOther
    cases same
    cases result with
    | error halt => exact ⟨rfl, after⟩
    | ok outcome => exact ih after (outcome <|> latest)

theorem Alike.runSource (alike : left.Alike right) (source : String) :
    (left.runSource source).1 = (right.runSource source).1 ∧
      (left.runSource source).2.Alike (right.runSource source).2 := by
  rw [Session.runSource, Session.runSource]
  cases Source.program source with
  | error cause => exact ⟨rfl, alike⟩
  | ok program => exact alike.acceptAll none program

/-- The pairs of sessions that two sessions come to when both are given the same. -/
inductive Together (one two : Session) : Session → Session → Prop where
  | start : Together one two one two
  | accept {left right : Session} (before : Together one two left right) (clause : Clause) :
      Together one two (left.accept clause).2 (right.accept clause).2
  | run {left right : Session} (before : Together one two left right) (program : Program) :
      Together one two (left.run program).2 (right.run program).2
  | runSource {left right : Session} (before : Together one two left right) (source : String) :
      Together one two (left.runSource source).2 (right.runSource source).2

theorem Together.alike {one two : Session} (together : Together one two left right)
    (alike : one.Alike two) : left.Alike right := by
  induction together with
  | start => exact alike
  | accept _ clause ih => exact (ih.accept clause).2
  | run _ program ih => exact (ih.acceptAll none program).2
  | runSource _ source ih => exact (ih.runSource source).2

end Session

/-- The conjunction of some predicates asks for these predicates. If a goal asks for some predicates, any
other goal with these for its leaves is answered alike in every session. A rule with either as its body is
taken with the same result, and afterwards, whatever both sessions are given, they answer every query
alike and make the same searches, with the same environments and as many copies of rules. A goal that is
refused is refused for the first of its leaves that is no predicate, with its kind. -/
theorem bracketing_irrelevant :
    (∀ goals : List Predicate, goals ≠ [] →
      ∃ goal, Term.ofGoals? goals = some goal ∧ goal.goals = .ok goals) ∧
    (∀ (goal other : Term) (goals : List Predicate), goal.goals = .ok goals →
      other.leaves = goals.map Predicate.toTerm →
        (∀ session : Session, session.query goal = session.query other) ∧
        ∀ (session : Session) (head : Predicate),
          let one := session.accept (.rule head goal)
          let two := session.accept (.rule head other)
          one.1 = two.1 ∧ ∀ left right, Session.Together one.2 two.2 left right →
            (∀ asked, left.query asked = right.query asked) ∧
            ∀ (σ : Type) (visitor : Visitor σ) (fuel expansions : Nat) (pending : List Predicate)
              (progress : Progress σ),
              search left.database left.limits visitor fuel expansions pending progress =
                search right.database right.limits visitor fuel expansions pending progress) ∧
    ∀ (goal : Term) (found : Kind), goal.goals = .error found ↔
      ∃ before leaf after, goal.leaves = before ++ leaf :: after ∧
        (∀ part ∈ before, ∃ p : Predicate, part = p.toTerm) ∧
        (∀ p : Predicate, leaf ≠ p.toTerm) ∧ found = leaf.kind := by
  refine ⟨fun _ => Term.exists_ofGoals?, ?regrouped, fun _ _ => Term.goals_eq_error_iff⟩
  case regrouped =>
    intro goal other goals flat built
    have same : goal.leaves = other.leaves := (Term.goals_eq_ok_iff.mp flat).trans built.symm
    refine ⟨fun session => session.query_of_leaves same, ?_⟩
    intro session head one two
    obtain ⟨results, alike⟩ := (Session.Alike.refl session).accept_rule head same
    refine ⟨results, ?_⟩
    intro left right together
    have still := together.alike alike
    refine ⟨still.query_eq, ?_⟩
    intro σ visitor fuel expansions pending progress
    rw [search_of_bodiless still.database, still.limits]

namespace Rounds

def step (start stop : Term) : Predicate :=
  ⟨"step", [start, stop]⟩

/-- A way from `X` back to it. -/
def around : List Predicate :=
  [step (.var "X") (.var "Y"), step (.var "Y") (.var "Z"), step (.var "Z") (.var "X")]

def toTheLeft : Term :=
  .conj (.conj (step (.var "X") (.var "Y")).toTerm (step (.var "Y") (.var "Z")).toTerm)
    (step (.var "Z") (.var "X")).toTerm

def toTheRight : Term :=
  .conj (step (.var "X") (.var "Y")).toTerm
    (.conj (step (.var "Y") (.var "Z")).toTerm (step (.var "Z") (.var "X")).toTerm)

/-- Nothing says who the guide of a round is. -/
def round : Predicate :=
  ⟨"round", [.var "X", .var "Guide"]⟩

def session : Session :=
  (Session.run { limits := .ofDepth 1 }
    [.fact (step (.atom "a") (.atom "b")), .fact (step (.atom "b") (.atom "c"))]).2

def last : Clause :=
  .fact (step (.atom "c") (.atom "a"))

def question : Term :=
  .compound "round" [.var "Start", .var "Who"]

end Rounds

open Rounds in
theorem bracketing_irrelevant_rounds :
    Term.ofGoals? around = some toTheRight ∧ toTheRight.goals = .ok around ∧
      toTheLeft.leaves = around.map Predicate.toTerm ∧
      Rounds.session.query toTheRight = Rounds.session.query toTheLeft ∧
      ∃ answers : List Answer,
        (((Rounds.session.accept (.rule round toTheRight)).2.accept last).2).query question =
          .ok (.solutions answers) ∧
        (((Rounds.session.accept (.rule round toTheLeft)).2.accept last).2).query question =
          .ok (.solutions answers) ∧
        answers.map Answer.bindings = [[("Start", "a"), ("Who", "Guide#1")],
          [("Start", "b"), ("Who", "Guide#1")], [("Start", "c"), ("Who", "Guide#1")]] := by
  obtain ⟨nested, regrouped, -⟩ := bracketing_irrelevant
  obtain ⟨goal, made, flat⟩ := nested around (by simp [around])
  have right : Term.ofGoals? around = some toTheRight := rfl
  obtain rfl : toTheRight = goal := Option.some.inj (right.symm.trans made)
  have leaves : toTheLeft.leaves = around.map Predicate.toTerm := rfl
  obtain ⟨same, ruled⟩ := regrouped toTheRight toTheLeft around flat leaves
  obtain ⟨-, later⟩ := ruled Rounds.session round
  obtain ⟨asked, -⟩ := later _ _ (.accept .start last)
  obtain ⟨answers, answered, bindings⟩ : ∃ answers : List Answer,
      (((Rounds.session.accept (.rule round toTheRight)).2.accept last).2).query question =
          .ok (.solutions answers) ∧
        answers.map Answer.bindings = [[("Start", "a"), ("Who", "Guide#1")],
          [("Start", "b"), ("Who", "Guide#1")], [("Start", "c"), ("Who", "Guide#1")]] :=
    ⟨_, by rfl, by rfl⟩
  exact ⟨right, flat, leaves, same _, answers, answered, (asked question).symm.trans answered, bindings⟩

end Backchain
