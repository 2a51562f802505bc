import Backchain.Console
import Backchain.Proofs.Search.Skeleton
import Backchain.Proofs.Search.Termination
import Backchain.Proofs.Session.Reachable

/-!
A depth limit guarantees termination.

Sessions and the console are taken once more, over the search that has fuel only: a step gives nothing
if the fuel runs out in one of its searches. Under a limit every search ends, and a step makes only as
many searches as it takes queries, so every step and every line ends, with the result of the program.
-/
set_option autoImplicit false

namespace Backchain

/-! ## The recursions -/

/-- Shows every environment that satisfies the goals to a visitor, in search order. -/
def Search.each? {σ : Type} (s : Search) (fuel : Nat) (visitor : Visitor σ) (goals : List Predicate)
    (env : Env) (seen : σ) : Option (Ending × σ × Search) := do
  let (ending, ⟨_, copies, seen⟩) ← search? s.database s.limits visitor fuel 0 goals
    ⟨env, s.copies, seen⟩
  return (ending, seen, { s with copies })

namespace Session

/-- Answers a goal: a verdict if it has no variables, all solutions otherwise. -/
def query? (session : Session) (fuel : Nat) (goal : Term) : Option (Except Halt Outcome) :=
  match checkNames [goal] with
  | .error cause => return .error (.error cause)
  | .ok () =>
    match goal.goals with
    | .error found => return .error (.error (.malformedGoal found))
    | .ok goals => do
      let fresh : Search := ⟨session.database, session.limits, 0⟩
      if goal.isGround then
        let (ending, seen, _) ← fresh.each? fuel (Search.collector (some 1)) goals ∅ #[]
        return (ending.answer seen.toList.head?).map fun found => .proven found.isSome
      else
        let (ending, seen, _) ← fresh.each? fuel (answering goal.vars) goals ∅ #[]
        return (ending.answer seen).map fun answers => .solutions answers.toList

/-- Takes one clause; only a query searches. -/
def accept? (session : Session) (fuel : Nat) :
    Clause → Option (Except Halt (Option Outcome) × Session)
  | .query goal => do
    let outcome ← session.query? fuel goal
    return (outcome.map some, session)
  | clause => return session.accept clause

/-- Takes clauses in order, up to the first failure. -/
def acceptAll? (fuel : Nat) (session : Session) (latest : Option Outcome) :
    Program → Option (Except Halt (Option Outcome) × Session)
  | [] => return (.ok latest, session)
  | clause :: clauses => do
    match ← session.accept? fuel clause with
    | (.error halt, next) => return (.error halt, next)
    | (.ok outcome, next) => acceptAll? fuel next (outcome <|> latest) clauses

/-- Takes a program as source text. -/
def runSource? (session : Session) (fuel : Nat) (source : String) :
    Option (Except Halt (Option Outcome) × Session) :=
  match Source.program source with
  | .error cause => return (.error (.error cause), session)
  | .ok program => acceptAll? fuel session none program

end Session

/-- What is written for a line and the session after it, or nothing at the end of the console. -/
def Console.step? (session : Session) (fuel : Nat) (line : String) :
    Option (Option (String × Session)) :=
  let source := Blank.trim line
  if source = "" then return some ("", session)
  else if source = "halt." then return none
  else do
    let (result, next) ← session.runSource? fuel source
    return some (reply result ++ "\n", next)

/-! ## They end -/

section

variable {limit : Nat}

theorem ends_search_of_limit {σ : Type} (database : Database) (visitor : Visitor σ)
    {fuel expansions : Nat} (enough : limit ≤ expansions + fuel) (goals : List Predicate) {env : Env}
    (acyclic : env.Acyclic) (copies : Nat) (seen : σ) :
    Ends (search? database (.ofDepth limit) visitor · expansions goals ⟨env, copies, seen⟩)
      (search database (.ofDepth limit) visitor fuel expansions goals ⟨env, copies, seen⟩) := by
  have finishes := finishes_search database (.ofDepth limit) visitor fuel expansions goals
  apply finishes.ends _ acyclic
  exact search_ne_unfinished rfl enough database visitor goals env copies seen

theorem ends_each {σ : Type} (database : Database) (visitor : Visitor σ) (copies : Nat)
    (goals : List Predicate) {env : Env} (acyclic : env.Acyclic) (seen : σ) :
    Ends (Search.each? ⟨database, .ofDepth limit, copies⟩ · visitor goals env seen)
      (Search.each ⟨database, .ofDepth limit, copies⟩ visitor goals env seen) :=
  (ends_search_of_limit database visitor (by simp [Limits.ofDepth]) goals acyclic copies seen).bind
    (.pure _)

namespace Session

theorem ends_query {session : Session} (limited : session.limits = .ofDepth limit) (goal : Term) :
    Ends (session.query? · goal) (session.query goal) := by
  unfold query? query
  rw [limited]
  cases checkNames [goal] with
  | error cause => exact .pure _
  | ok =>
    cases goal.goals with
    | error found => exact .pure _
    | ok goals =>
      cases goal.isGround with
      | true => exact (ends_each _ _ _ _ Env.acyclic_empty _).bind (.pure _)
      | false => exact (ends_each _ _ _ _ Env.acyclic_empty _).bind (.pure _)

theorem ends_accept {session : Session} (limited : session.limits = .ofDepth limit)
    (clause : Clause) : Ends (session.accept? · clause) (session.accept clause) := by
  cases clause with
  | query goal => exact (ends_query limited goal).bind (.pure _)
  | _ => exact .pure _

/-- No clause changes the limits. -/
theorem limits_accept (session : Session) (clause : Clause) :
    (session.accept clause).2.limits = session.limits := by
  cases clause with
  | fact predicate =>
    simp only [accept, storeFact]
    split <;> rfl
  | rule head body =>
    simp only [accept, storeRule]
    split
    · rfl
    · split <;> rfl
  | query goal => rfl

theorem ends_acceptAll {session : Session} (limited : session.limits = .ofDepth limit)
    (latest : Option Outcome) (program : Program) :
    Ends (acceptAll? · session latest program) (session.acceptAll latest program) := by
  induction program generalizing session latest with
  | nil => exact .pure _
  | cons clause clauses ih =>
    have taken := ends_accept limited clause
    have kept := (limits_accept session clause).trans limited
    apply taken.bind
    rw [acceptAll]
    generalize session.accept clause = outcome at kept
    obtain ⟨result, next⟩ := outcome
    cases result with
    | error halt => exact .pure _
    | ok found => exact ih kept (found <|> latest)

theorem ends_runSource {session : Session} (limited : session.limits = .ofDepth limit)
    (source : String) : Ends (session.runSource? · source) (session.runSource source) := by
  unfold runSource? runSource
  cases Source.program source with
  | error cause => exact .pure _
  | ok program => exact ends_acceptAll limited none program

theorem limits_runSource (session : Session) (source : String) :
    (session.runSource source).2.limits = session.limits := by
  rw [runSource]
  split
  · rfl
  · apply acceptAll_induct (motive := fun next => next.limits = session.limits)
    · exact fun next clause kept => (limits_accept next clause).trans kept
    · rfl

end Session

namespace Console

theorem ends_step {session : Session} (limited : session.limits = .ofDepth limit) (line : String) :
    Ends (step? session · line) (step session line) := by
  unfold step? step
  by_cases blank : Blank.trim line = ""
  · simp only [if_pos blank]
    exact .pure _
  · by_cases halt : Blank.trim line = "halt."
    · simp only [if_neg blank, if_pos halt]
      exact .pure _
    · simp only [if_neg blank, if_neg halt]
      exact (Session.ends_runSource limited _).bind (.pure _)

theorem limits_step {session next : Session} {line written : String}
    (taken : step session line = some (written, next)) : next.limits = session.limits := by
  have kept := session.limits_runSource (Blank.trim line)
  generalize outcome : session.runSource (Blank.trim line) = ran at kept
  obtain ⟨result, after⟩ := ran
  simp only [step, outcome] at taken
  split at taken
  · cases taken
    rfl
  · split at taken
    · cases taken
    · cases taken
      exact kept

end Console

end

/-- Under a limit, every search from a reachable environment ends, whatever the clauses, the goals and
the visitor, and so does every step of a session and every line of the console, which keeps the limit.
They end with the results of the program. -/
theorem depth_limit_terminates (limit : Nat) :
    (∀ {σ : Type} (database : Database) (visitor : Visitor σ) (expansions : Nat)
        (goals : List Predicate) (env : Env) (copies : Nat) (seen : σ), env.Reachable →
      Ends (search? database (.ofDepth limit) visitor · expansions goals ⟨env, copies, seen⟩)
        (search database (.ofDepth limit) visitor (Limits.ofDepth limit).fuel expansions goals
          ⟨env, copies, seen⟩)) ∧
      ∀ session : Session, session.limits = .ofDepth limit →
        (∀ goal, Ends (session.query? · goal) (session.query goal)) ∧
        (∀ clause, Ends (session.accept? · clause) (session.accept clause)) ∧
        (∀ program, Ends (Session.acceptAll? · session none program) (session.run program)) ∧
        (∀ source, Ends (session.runSource? · source) (session.runSource source)) ∧
        ∀ line, Ends (Console.step? session · line) (Console.step session line) ∧
          ∀ written next, Console.step session line = some (written, next) →
            next.limits = .ofDepth limit := by
  constructor
  · intro σ database visitor expansions goals env copies seen reachable
    apply ends_search_of_limit database visitor _ goals reachable.acyclic copies seen
    simp only [Limits.ofDepth]
    omega
  · intro session limited
    refine ⟨Session.ends_query limited, Session.ends_accept limited,
      Session.ends_acceptAll limited none, Session.ends_runSource limited, ?_⟩
    intro line
    refine ⟨Console.ends_step limited line, ?_⟩
    intro written next taken
    exact (Console.limits_step taken).trans limited

/-- A session with a rule that only leads back to itself, and a limit. -/
def circling : Session :=
  ({ limits := .ofDepth 3 : Session }.run
    [.rule ⟨"on", [.var "X"]⟩ (.compound "on" [.compound "s" [.var "X"]])]).2

theorem depth_limit_terminates_circling :
    Ends (search? circling.database (.ofDepth 3) (Search.collector none) · 1
        [⟨"on", [.var "W"]⟩] ⟨Streets.named, 0, #[]⟩)
      (search circling.database (.ofDepth 3) (Search.collector none) 4 1
        [⟨"on", [.var "W"]⟩] ⟨Streets.named, 0, #[]⟩) ∧
      circling.limits = .ofDepth 3 ∧
      Ends (circling.query? · (.compound "on" [.atom "a"]))
        (.error (.error (.depthLimitExceeded 3))) := by
  have limited : circling.limits = .ofDepth 3 := rfl
  have searched := (depth_limit_terminates 3).1 circling.database (Search.collector none) 1
    [⟨"on", [.var "W"]⟩] Streets.named 0 #[] Streets.reachable_named
  have queried := ((depth_limit_terminates 3).2 circling limited).1 (.compound "on" [.atom "a"])
  have failed : circling.query (.compound "on" [.atom "a"]) =
      .error (.error (.depthLimitExceeded 3)) := by rfl
  rw [failed] at queried
  exact ⟨searched, limited, queried⟩

end Backchain
