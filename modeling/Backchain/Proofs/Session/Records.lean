import Backchain.Proofs.Answer
import Backchain.Proofs.Search.EarlyStop
import Backchain.Proofs.Search.Soundness

/-!
What a query with variables answers.

The answers are one for each environment that a full search finds, in the order of the search, and each
of them shows the variables of the goal that its environment binds. The texts are those of the terms
that the variables stand for, since rendering goes through the bindings as substitution does.
-/
set_option autoImplicit false

namespace Backchain

namespace Session

variable {session : Session} {goal : Term} {goals : List Predicate}

/-- A query that gets an answer asks for goals and uses no reserved name. -/
theorem goals_of_query {outcome : Outcome} (answered : session.query goal = .ok outcome) :
    checkNames [goal] = .ok () ∧ ∃ goals, goal.goals = .ok goals := by
  unfold query at answered
  split at answered
  · cases answered
  · rename_i unmarked
    cases flat : goal.goals with
    | error found =>
      simp only [flat] at answered
      cases answered
    | ok goals => exact ⟨unmarked, goals, rfl⟩

/-- A goal with variables is answered from what a full search finds. -/
theorem query_of_not_isGround (unmarked : checkNames [goal] = .ok ()) (flat : goal.goals = .ok goals)
    (notGround : goal.isGround = false) :
    session.query goal = (session.fresh.all goals ∅).1.map fun envs =>
      .solutions (envs.map fun env => env.answer goal.vars) := by
  have shown : ∀ (ending : Ending) (copies : Nat) (found : List (Env × Nat)) (seen : Array Answer),
      Listing.showFound (answering goal.vars) ending copies found seen =
        (ending, ⟨copies, seen ++ found.map fun entry => entry.1.answer goal.vars⟩) :=
    Search.showFound_of_yield fun _ _ => rfl
  simp only [query, unmarked, flat, notGround, Search.each_eq, Search.all_eq, Listing.showTo, shown,
    Listing.envs, fresh]
  generalize Search.listing _ _ _ = listing
  cases listing.ending <;> simp [Ending.answer, Except.map]

/-- A query that gets solutions has variables, and the answers show what a full search finds. -/
theorem all_of_query {answers : List Answer} (answered : session.query goal = .ok (.solutions answers)) :
    goal.isGround = false ∧ ∃ goals envs, goal.goals = .ok goals ∧
      (session.fresh.all goals ∅).1 = .ok envs ∧ answers = envs.map fun env => env.answer goal.vars := by
  obtain ⟨unmarked, goals, flat⟩ := goals_of_query answered
  cases ground : goal.isGround with
  | true =>
    rw [query_of_isGround flat ground] at answered
    cases found : (session.fresh.first? goals ∅).1 <;> rw [found] at answered <;> cases answered
  | false =>
    rw [query_of_not_isGround unmarked flat ground] at answered
    cases found : (session.fresh.all goals ∅).1 with
    | error halt =>
      rw [found] at answered
      cases answered
    | ok envs =>
      rw [found] at answered
      cases answered
      exact ⟨rfl, goals, envs, flat, found, rfl⟩

/-- What is found from the empty environment has no cycle. -/
theorem acyclic_of_all {envs : List Env} (searched : (session.fresh.all goals ∅).1 = .ok envs) :
    ∀ env ∈ envs, env.Acyclic := by
  rw [Search.all_eq] at searched
  obtain ⟨-, rfl⟩ := Search.exhausted_of_answer searched
  intro env member
  exact (listing_answers _ _ _ 0 goals ∅ 0 Env.acyclic_empty env member).acyclic

end Session

/-- To render a term in an environment is to replace everything bound and to render the rest, and the
recursion through the bindings ends with the same text. When a query gets solutions, these are one
answer for each environment that a full search for the goals finds from the empty environment and with
no copies made, in the same order. Each answer shows the variables of the goal that its environment
binds, all of them and no others, as they first occur, with the text of what they stand for. -/
theorem answers_faithful :
    (∀ env : Env, env.Reachable → ∀ term,
      env.render term = (∅ : Env).render (env.substitute term) ∧
        Ends (env.render? · term) ((∅ : Env).render (env.substitute term))) ∧
      ∀ (session : Session) (goal : Term) (answers : List Answer),
        session.query goal = .ok (.solutions answers) →
          goal.isGround = false ∧ ∃ goals envs, goal.goals = .ok goals ∧
            (Search.all ⟨session.database, session.limits, 0⟩ goals ∅).1 = .ok envs ∧
            List.Forall₂ (Answer.Shows goal) envs answers := by
  constructor
  · intro env reachable term
    have same := env.render_eq_render_substitute term
    have ends := Env.ends_render reachable.acyclic term
    rw [same] at ends
    exact ⟨same, ends⟩
  · intro session goal answers answered
    obtain ⟨notGround, goals, envs, flat, searched, rfl⟩ := Session.all_of_query answered
    refine ⟨notGround, goals, envs, flat, searched, ?_⟩
    rw [List.forall₂_map_right_iff, List.forall₂_same]
    intro env member
    exact Answer.shows_answer (Session.acyclic_of_all searched env member) goal

namespace Gifts

def likes (who what : Term) : Predicate :=
  ⟨"likes", [who, what]⟩

/-- Ann likes anything, and whoever likes something is paired with it. -/
def session : Session :=
  let x := Term.var "X"
  let y := Term.var "Y"
  (Session.run { limits := .ofDepth 2 }
    [.fact (likes (.atom "ann") (.var "Z")), .fact (likes (.atom "bob") (.string "tea")),
      .rule ⟨"pair", [x, .compound "both" [x, y]]⟩ (likes x y).toTerm]).2

/-- The last variable is that of the first fact, and stays unbound. -/
def goal : Term :=
  .conj (.compound "pair" [.var "W", .var "V"]) (likes (.atom "ann") (.var "Z")).toTerm

end Gifts

theorem answers_faithful_gifts :
    ∃ answers goals envs, Gifts.session.query Gifts.goal = .ok (.solutions answers) ∧
      answers.map Answer.bindings =
        [[("W", "ann"), ("V", "both(ann, Z)")], [("W", "bob"), ("V", "both(bob, tea)")]] ∧
      Gifts.goal.goals = .ok goals ∧
      (Search.all ⟨Gifts.session.database, Gifts.session.limits, 0⟩ goals ∅).1 = .ok envs ∧
      List.Forall₂ (Answer.Shows Gifts.goal) envs answers := by
  obtain ⟨answers, answered, bindings⟩ : ∃ answers,
      Gifts.session.query Gifts.goal = .ok (.solutions answers) ∧ answers.map Answer.bindings =
        [[("W", "ann"), ("V", "both(ann, Z)")], [("W", "bob"), ("V", "both(bob, tea)")]] :=
    ⟨_, by rfl, by rfl⟩
  obtain ⟨-, goals, envs, flat, searched, shown⟩ :=
    answers_faithful.2 Gifts.session Gifts.goal answers answered
  exact ⟨answers, goals, envs, answered, bindings, flat, searched, shown⟩

end Backchain
