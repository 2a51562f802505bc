import Backchain.Proofs.Search.Enumeration
import Backchain.Proofs.Session.Reachable

/-!
Ground queries decide the least model.

The least model of a database with ground facts is the least set of predicates that has the facts and
is closed under the ground instances of the rules. A derivation puts its goals into the least model
once every variable that it left open gets some ground value, and whatever is in the least model has a
derivation. So a proven goal is in the model, and a search that comes to its full end without an
environment has shown that no derivation exists.
-/
set_option autoImplicit false

namespace Backchain

/-- The least set with the facts that is closed under the ground instances of the rules. -/
inductive LeastModel (database : Database) : Predicate → Prop where
  | fact {fact : Predicate} (stored : fact ∈ database.facts) : LeastModel database fact
  | rule {rule : Rule} {goals : List Predicate} (value : String → Term)
      (stored : rule ∈ database.rules) (flat : rule.body.goals = .ok goals)
      (ground : ∀ x, (value x).isGround = true)
      (holds : ∀ goal ∈ goals, LeastModel database (goal.bind value)) :
      LeastModel database (rule.head.bind value)

variable {database : Database}

/-- A ground term for every variable. -/
def closing : String → Term :=
  fun _ => .atom ""

theorem isGround_bind_closing (term : Term) : (term.bind closing).isGround = true := by
  rw [Term.isGround_iff, Term.occurrences_bind, List.flatMap_eq_nil_iff]
  exact fun _ _ => rfl

theorem leastModel_of_derives (facts : ∀ fact ∈ database.facts, fact.IsGround)
    (flat : ∀ rule ∈ database.rules, rule.body.goals = .ok rule.goals) {value : String → Term}
    {skeleton : Skeleton} {instances : List Predicate}
    (derives : Derives database value skeleton instances) :
    ∀ goal ∈ instances, LeastModel database (goal.bind closing) := by
  induction derives with
  | done => exact fun goal member => absurd member List.not_mem_nil
  | @fact place fact rest instances stored _ ih =>
    rw [List.forall_mem_cons]
    refine ⟨?_, ih⟩
    have inside := Array.mem_of_getElem? stored
    rw [(facts fact inside).bind_eq, (facts fact inside).bind_eq]
    exact .fact inside
  | @rule place rule parts rest instances inner stored _ _ within ih =>
    rw [List.forall_mem_cons]
    refine ⟨?_, ih⟩
    have inside := Array.mem_of_getElem? stored
    rw [Predicate.bind_bind]
    -- The use of the rule, closed, is a ground instance of it.
    refine .rule _ inside (flat rule inside) (fun x => isGround_bind_closing (inner x)) ?_
    intro goal member
    rw [← Predicate.bind_bind]
    exact within _ (List.mem_map_of_mem member)

theorem derives_of_leastModel (facts : ∀ fact ∈ database.facts, fact.IsGround)
    (flat : ∀ rule ∈ database.rules, rule.body.goals = .ok rule.goals) (value : String → Term)
    {goal : Predicate} (holds : LeastModel database goal) :
    ∃ tree, Derives database value tree [goal] := by
  induction holds with
  | @fact fact stored =>
    obtain ⟨place, present⟩ := Array.getElem?_of_mem stored
    have derives : Derives database value (.fact place .done) [fact.bind value] :=
      .fact present .done
    rw [(facts fact stored).bind_eq] at derives
    exact ⟨_, derives⟩
  | @rule rule goals inner stored same _ _ ih =>
    obtain rfl : rule.goals = goals := Except.ok.inj ((flat rule stored).symm.trans same)
    obtain ⟨place, present⟩ := Array.getElem?_of_mem stored
    have each : ∀ part ∈ rule.goals.map fun goal => goal.bind inner,
        ∃ tree, Derives database value tree [part] := by
      rw [List.forall_mem_map]
      exact ih
    obtain ⟨parts, within⟩ := Derives.of_each each
    exact ⟨_, .rule inner present within .done⟩

theorem map_bind_of_isGround {goals : List Predicate} (ground : ∀ goal ∈ goals, goal.IsGround)
    (value : String → Term) : (goals.map fun goal => goal.bind value) = goals := by
  have same : (goals.map fun goal => goal.bind value) = goals.map id :=
    List.map_congr_left fun goal member => (ground goal member).bind_eq value
  rw [same, List.map_id]

/-- A search for ground goals that found nothing and was not cut off has left no derivation. -/
theorem not_derives_of_exhausted {s : Search} {goals : List Predicate}
    (accepted : s.database.Accepted) (plainClauses : s.database.Every Predicate.IsPlain)
    (plain : ∀ goal ∈ goals, goal.IsPlain) (ground : ∀ goal ∈ goals, goal.IsGround)
    (full : (s.listing goals ∅).ending = .exhausted) (nothing : (s.listing goals ∅).envs = [])
    (value : String → Term) (skeleton : Skeleton) : ¬ Derives s.database value skeleton goals := by
  intro derives
  have unbound : ∀ x term, (∅ : Env).find? x ≠ some term := fun x term bound =>
    absurd (Env.mem_toList_iff.mpr bound) List.not_mem_nil
  have ready := Ready.of_unmarked Env.acyclic_empty
    (fun x term bound => absurd bound (unbound x term)) plain
    (fun x term bound => absurd bound (unbound x term))
    (fun goal member => (ground goal member).isUnmarked) s.copies
  have searchable := Searchable.of_unmarked accepted.built plainClauses accepted.unmarked
  obtain ⟨-, skeletons, enumerates⟩ :=
    explored_listing searchable s.limits s.limits.fuel 0 goals ∅ s.copies ready full
  have none : skeletons = [] := by
    have found := enumerates.found
    rw [Search.listing] at nothing
    rwa [nothing, List.forall₂_nil_right_iff] at found
  rw [← map_bind_of_isGround ground value] at derives
  have member := enumerates.complete skeleton value trivial
    (fun x term bound => absurd bound (unbound x term)) derives
  rw [none] at member
  exact absurd member List.not_mem_nil

theorem query_eq_proven {session : Session} {goal : Term} {goals : List Predicate} {proven : Bool}
    (flat : goal.goals = .ok goals) (answered : session.query goal = .ok (.proven proven)) :
    goal.isGround = true ∧ ∃ found : Option Env, found.isSome = proven ∧
      (Search.first? ⟨session.database, session.limits, 0⟩ goals ∅).1 = .ok found := by
  unfold Session.query at answered
  split at answered
  · cases answered
  · simp only [flat] at answered
    split at answered
    · rename_i ground
      refine ⟨ground, ?_⟩
      cases searched : (Search.first? ⟨session.database, session.limits, 0⟩ goals ∅).1 with
      | error halt =>
        rw [searched] at answered
        cases answered
      | ok found =>
        rw [searched] at answered
        exact ⟨found, Outcome.proven.inj (Except.ok.inj answered), rfl⟩
    · generalize Search.each _ _ _ _ _ = searched at answered
      obtain ⟨ending, seen, next⟩ := searched
      cases ending <;> cases answered

/-- If all stored facts are ground and no conjunction stands in an argument, a ground query that gets
an answer is proven exactly if all its goals are in the least model. -/
theorem query_decides_leastModel (session : Session) (goal : Term) (goals : List Predicate)
    (proven : Bool) (reachable : session.Reachable)
    (groundFacts : ∀ fact ∈ session.database.facts, fact.IsGround)
    (plainClauses : session.database.Every Predicate.IsPlain) (flat : goal.goals = .ok goals)
    (plainGoals : ∀ goal ∈ goals, goal.IsPlain)
    (answered : session.query goal = .ok (.proven proven)) :
    proven = true ↔ ∀ goal ∈ goals, LeastModel session.database goal := by
  have accepted := reachable.accepted
  obtain ⟨groundGoal, found, rfl, searched⟩ := query_eq_proven flat answered
  have ground := Term.isGround_goals flat groundGoal
  rw [Search.first?_eq] at searched
  split at searched
  · rename_i nothing
    obtain ⟨full, rfl⟩ := Search.exhausted_of_answer searched
    constructor
    · intro success
      cases success
    · intro holds
      obtain ⟨skeleton, derives⟩ := Derives.of_each fun goal member =>
        derives_of_leastModel groundFacts accepted.flat closing (holds goal member)
      exact absurd derives
        (not_derives_of_exhausted accepted plainClauses plainGoals ground full nothing _ _)
  · rename_i first others listed
    rw [Except.ok.injEq] at searched
    subst searched
    have member : first ∈ (Search.listing ⟨session.database, session.limits, 0⟩ goals ∅).envs :=
      listed ▸ List.mem_cons_self
    obtain ⟨skeleton, derives⟩ := (listing_answers session.database session.limits
      session.limits.fuel 0 goals ∅ 0 Env.acyclic_empty first member).derives
    rw [map_bind_of_isGround ground] at derives
    have holds := leastModel_of_derives groundFacts accepted.flat derives
    refine ⟨fun _ goal inside => ?_, fun _ => rfl⟩
    rw [← (ground goal inside).bind_eq closing]
    exact holds goal inside

def Streets.session : Session :=
  let x := Term.var "X"
  let y := Term.var "Y"
  let z := Term.var "Z"
  let program : Program :=
    [.fact (street (.atom "a") (.atom "b")), .fact (street (.atom "b") (.atom "c")),
      .rule (way x y) (street x y).toTerm,
      .rule (way x z) (.conj (street x y).toTerm (way y z).toTerm)]
  (Session.run { limits := .ofDepth 4 } program).2

theorem query_decides_leastModel_streets :
    LeastModel Streets.session.database (Streets.way (.atom "a") (.atom "c")) ∧
      ¬ LeastModel Streets.session.database (Streets.way (.atom "c") (.atom "a")) := by
  have reachable : Streets.session.Reachable := .run (.start _) _
  have there := query_decides_leastModel Streets.session (Streets.way (.atom "a") (.atom "c")).toTerm
    _ true reachable (by decide) (by decide) rfl (by decide) (by rfl)
  have back := query_decides_leastModel Streets.session (Streets.way (.atom "c") (.atom "a")).toTerm
    _ false reachable (by decide) (by decide) rfl (by decide) (by rfl)
  refine ⟨there.mp rfl _ List.mem_cons_self, ?_⟩
  intro holds
  have proven := back.mpr (List.forall_mem_singleton.mpr holds)
  cases proven

end Backchain
