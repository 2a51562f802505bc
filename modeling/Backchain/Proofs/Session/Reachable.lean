import Backchain.Session
import Backchain.Proofs.Database
import Backchain.Proofs.Term.Goals

/-!
The databases of sessions.

A session starts without clauses and stores only what it has accepted: no variable carries the mark of
rule copies, and the goals of a rule are those of its body. Every clause that a session takes keeps
this, whether it is stored, refused or a query, and so does every program.
-/
set_option autoImplicit false

namespace Backchain

/-- What holds of the clauses that sessions store. -/
structure Database.Accepted (database : Database) : Prop where
  built : database.Built
  unmarked : database.Every Predicate.IsUnmarked
  flat : ∀ rule ∈ database.rules, rule.body.goals = .ok rule.goals

theorem Rule.ofBody_eq_ok {head : Predicate} {body : Term} {rule : Rule}
    (accepted : Rule.ofBody head body = .ok rule) :
    rule.head = head ∧ rule.body = body ∧ body.goals = .ok rule.goals := by
  unfold Rule.ofBody at accepted
  split at accepted
  · rename_i goals flat
    rw [Except.ok.injEq] at accepted
    subst accepted
    exact ⟨rfl, rfl, flat⟩
  · cases accepted

namespace Database

variable {database : Database}

theorem accepted_empty : (∅ : Database).Accepted := by
  refine ⟨.empty, ⟨?_, ?_⟩, ?_⟩
  · exact fun fact member => absurd member (Array.not_mem_empty fact)
  · exact fun rule member => absurd member (Array.not_mem_empty rule)
  · exact fun rule member => absurd member (Array.not_mem_empty rule)

theorem Accepted.addFact (accepted : database.Accepted) {fact : Predicate}
    (unmarked : fact.IsUnmarked) : (database.addFact fact).Accepted := by
  refine ⟨accepted.built.fact fact, ⟨?_, accepted.unmarked.2⟩, accepted.flat⟩
  intro other member
  rcases Array.mem_push.mp member with before | rfl
  · exact accepted.unmarked.1 other before
  · exact unmarked

theorem Accepted.addRule (accepted : database.Accepted) {rule : Rule}
    (head : rule.head.IsUnmarked) (body : rule.body.IsUnmarked)
    (flat : rule.body.goals = .ok rule.goals) : (database.addRule rule).Accepted := by
  refine ⟨accepted.built.rule rule, ⟨accepted.unmarked.1, ?_⟩, ?_⟩
  · intro other member
    rcases Array.mem_push.mp member with before | rfl
    · exact accepted.unmarked.2 other before
    · exact ⟨head, body.goals flat⟩
  · intro other member
    rcases Array.mem_push.mp member with before | rfl
    · exact accepted.flat other before
    · exact flat

end Database

namespace Session

/-- The sessions that taking clauses, programs and source texts leads to. -/
inductive Reachable : Session → Prop where
  | start (limits : Limits) : Reachable { limits }
  | accept {session : Session} (before : Reachable session) (clause : Clause) :
      Reachable (session.accept clause).2
  | run {session : Session} (before : Reachable session) (program : Program) :
      Reachable (session.run program).2
  | runSource {session : Session} (before : Reachable session) (source : String) :
      Reachable (session.runSource source).2

theorem accepted_storeFact {session next : Session} {fact : Predicate}
    (accepted : session.database.Accepted) (stored : session.storeFact fact = .ok next) :
    next.database.Accepted := by
  unfold storeFact at stored
  split at stored
  · cases stored
  · rename_i checked
    rw [Except.ok.injEq] at stored
    subst stored
    exact accepted.addFact (checkNames_eq_ok_iff.mp checked)

theorem accepted_storeRule {session next : Session} {head : Predicate} {body : Term}
    (accepted : session.database.Accepted) (stored : session.storeRule head body = .ok next) :
    next.database.Accepted := by
  unfold storeRule at stored
  split at stored
  · cases stored
  · rename_i checked
    split at stored
    · cases stored
    · rename_i rule made
      rw [Except.ok.injEq] at stored
      subst stored
      obtain ⟨rfl, rfl, flat⟩ := Rule.ofBody_eq_ok made
      obtain ⟨onHead, onBody⟩ := List.forall_mem_append.mp (checkNames_eq_ok_iff.mp checked)
      exact accepted.addRule onHead (onBody _ (List.mem_singleton.mpr rfl)) flat

theorem accepted_accept {session : Session} (accepted : session.database.Accepted)
    (clause : Clause) : (session.accept clause).2.database.Accepted := by
  cases clause with
  | fact predicate =>
    rw [accept]
    cases outcome : session.storeFact predicate with
    | error cause => exact accepted
    | ok next => exact accepted_storeFact accepted outcome
  | rule head body =>
    rw [accept]
    cases outcome : session.storeRule head body with
    | error cause => exact accepted
    | ok next => exact accepted_storeRule accepted outcome
  | query goal => exact accepted

/-- What taking one clause keeps, taking a program keeps. -/
theorem acceptAll_induct {motive : Session → Prop}
    (step : ∀ session clause, motive session → motive (session.accept clause).2)
    (program : Program) (latest : Option Outcome) {session : Session} (before : motive session) :
    motive (session.acceptAll latest program).2 := by
  induction program generalizing session latest with
  | nil => exact before
  | cons clause clauses ih =>
    have kept := step session clause before
    rw [acceptAll]
    generalize session.accept clause = taken at kept
    obtain ⟨outcome, next⟩ := taken
    cases outcome with
    | error halt => exact kept
    | ok found => exact ih (found <|> latest) kept

theorem Reachable.accepted {session : Session} (reachable : session.Reachable) :
    session.database.Accepted := by
  have step : ∀ (session : Session) (clause : Clause), session.database.Accepted →
      (session.accept clause).2.database.Accepted := fun _ clause kept => accepted_accept kept clause
  induction reachable with
  | start limits => exact Database.accepted_empty
  | accept _ clause ih => exact accepted_accept ih clause
  | run _ program ih => exact acceptAll_induct step program none ih
  | @runSource session _ source ih =>
    rw [Session.runSource]
    split
    · exact ih
    · exact acceptAll_induct step _ none ih

end Session

end Backchain
