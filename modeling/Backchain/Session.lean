import Backchain.Answer
import Backchain.Clause
import Backchain.Search
import Backchain.Source.Program

/-!
Sessions: clauses are stored one after another and queries are answered in between.

A clause that is refused leaves the session as it was, and so does every query. A program stops at
its first failure; what it stored before stays.
-/
set_option autoImplicit false

namespace Backchain

structure Session where
  database : Database := ∅
  limits : Limits

namespace Session

/-- Collects the answers that show these variables. -/
def answering (names : List String) : Visitor (Array Answer) := fun env seen =>
  .yield (seen.push (env.answer names))

/-- Answers a goal: a verdict if it has no variables, all solutions otherwise. -/
def query (session : Session) (goal : Term) : Except Halt Outcome :=
  match checkNames [goal] with
  | .error cause => .error (.error cause)
  | .ok () =>
    match goal.goals with
    | .error found => .error (.error (.malformedGoal found))
    | .ok goals =>
      let fresh : Search := ⟨session.database, session.limits, 0⟩
      if goal.isGround then
        (fresh.first? goals ∅).1.map fun found => .proven found.isSome
      else
        match fresh.each (answering goal.vars) goals ∅ #[] with
        | (ending, seen, _) => (ending.answer seen).map fun answers => .solutions answers.toList

/-- Stores a fact whose variables have names it may use. -/
def storeFact (session : Session) (fact : Predicate) : Except Error Session :=
  match checkNames fact.args with
  | .error cause => .error cause
  | .ok () => .ok { session with database := session.database.addFact fact }

/-- Stores a rule whose variables have names it may use and whose body is a goal. -/
def storeRule (session : Session) (head : Predicate) (body : Term) : Except Error Session :=
  match checkNames (head.args ++ [body]) with
  | .error cause => .error cause
  | .ok () =>
    match Rule.ofBody head body with
    | .error cause => .error cause
    | .ok rule => .ok { session with database := session.database.addRule rule }

/-- The session after storing a clause, or as it was if that was refused. -/
def stored (session : Session) : Except Error Session → Except Halt (Option Outcome) × Session
  | .ok next => (.ok none, next)
  | .error cause => (.error (.error cause), session)

/-- Takes one clause: facts and rules are stored, a query is answered. -/
def accept (session : Session) : Clause → Except Halt (Option Outcome) × Session
  | .fact predicate => session.stored (session.storeFact predicate)
  | .rule head body => session.stored (session.storeRule head body)
  | .query goal => ((session.query goal).map some, session)

/-- Takes clauses in order, up to the first failure, and gives the outcome of the last query,
which is `latest` if there is none. -/
def acceptAll (session : Session) (latest : Option Outcome) :
    Program → Except Halt (Option Outcome) × Session
  | [] => (.ok latest, session)
  | clause :: clauses =>
    match session.accept clause with
    | (.error halt, next) => (.error halt, next)
    | (.ok outcome, next) => next.acceptAll (outcome <|> latest) clauses

/-- Takes a whole program. -/
def run (session : Session) (program : Program) : Except Halt (Option Outcome) × Session :=
  session.acceptAll none program

/-- Takes a program as source text; source that cannot be read changes nothing. -/
def runSource (session : Session) (source : String) : Except Halt (Option Outcome) × Session :=
  match Source.program source with
  | .error cause => (.error (.error cause), session)
  | .ok program => session.run program

end Session

end Backchain
