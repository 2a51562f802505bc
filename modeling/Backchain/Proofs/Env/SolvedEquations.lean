import Backchain.Proofs.Env.Substitution

/-!
Solved equations stay solved.

An environment whose values make two plain terms equal unifies them without a binding: the values are a
solution, so the run succeeds, and they solve what it adds, but a variable that passes the occurs check
is never the value of the term that it is bound to. A later environment solves the equations of an
earlier one, so two terms that were unified once are unified again, in either order, and nothing
changes.
-/
set_option autoImplicit false

namespace Backchain

namespace Env

open Relation (ReflTransGen)

variable {env next later : Env} {left right : Term} {ok : Term → Prop}

/-! ## Equal terms need no binding -/

/-- The values of an environment do not solve one more binding: its variable stands for itself, and
another term in which it is not left for something else. -/
theorem Binds.not_solvedBy_value (step : env.Binds next) : ¬ next.SolvedBy env.value := by
  obtain ⟨name, term, unbound, apart, whole⟩ := step
  intro solved
  have added : next.find? name = some term := by
    rw [← mem_toList_iff, whole]
    exact List.mem_append_right _ List.mem_cons_self
  have same : Term.var name = env.substitute term := by
    rw [substitute_eq_bind, ← solved name term added, value_of_free unbound]
  have inside : env.occurs name term = true := by
    rw [occurs_iff, ← same]
    exact List.mem_singleton.mpr rfl
  rw [apart] at inside
  cases inside

/-- An environment whose values solve all that was added has had nothing added. -/
theorem eq_of_solvedBy_value (grown : ReflTransGen Binds env next)
    (solved : next.SolvedBy env.value) : next = env := by
  rcases ReflTransGen.cases_head grown with same | ⟨middle, step, later⟩
  · exact same.symm
  · exact absurd ((extends_of_binds later).solvedBy solved) step.not_solvedBy_value

/-- Plain terms are unified without a binding exactly if they stand for the same already. -/
theorem unify_eq_self_iff (acyclic : env.Acyclic) (plain : env.Every fun term => term.isPlain = true)
    (plainLeft : left.isPlain = true) (plainRight : right.isPlain = true) :
    env.unify left right = (true, env) ↔ env.substitute left = env.substitute right := by
  constructor
  · exact substitute_eq_of_unify acyclic
  · intro equal
    have solved := solvedBy_value acyclic
    have success := unify_of_solution acyclic plain plainLeft plainRight solved equal
    have unified : env.unify left right = (true, (env.unify left right).2) := Prod.ext success rfl
    have solvedNext := (solvedBy_iff_of_unify acyclic unified env.value).mpr ⟨solved, equal⟩
    have grown := (meets_of_unify acyclic unified).binds acyclic
    rw [unified, eq_of_solvedBy_value grown solvedNext]

/-- A conjunction is not even unified with itself. -/
example : let env := ((∅ : Env).unify (.var "X") (.conj (.atom "a") (.atom "b"))).2
    (env.unify (.var "X") (.var "X")).1 = false := rfl

/-! ## Further unifications -/

/-- One unification that succeeds, of two terms with a property. -/
def UnifiesOn (ok : Term → Prop) (env next : Env) : Prop :=
  ∃ left right, ok left ∧ ok right ∧ env.unify left right = (true, next)

theorem unifies_of_unifiesOn (step : UnifiesOn ok env next) : env.Unifies next := by
  obtain ⟨left, right, -, -, unified⟩ := step
  exact ⟨left, right, unified⟩

theorem ReachableOn.further (reachable : env.ReachableOn ok)
    (grown : ReflTransGen (UnifiesOn ok) env later) : later.ReachableOn ok := by
  induction grown with
  | refl => exact reachable
  | @tail middle last _ step ih =>
    obtain ⟨left, right, fineLeft, fineRight, unified⟩ := step
    have made := ih.unify fineLeft fineRight
    rwa [unified] at made

/-- What stands for the same once does so in every later environment. -/
theorem Extends.substitute_eq (extends_ : later.Extends env) (acyclic : later.Acyclic)
    (equal : env.substitute left = env.substitute right) :
    later.substitute left = later.substitute right := by
  rw [← extends_.substitute_substitute acyclic left, equal,
    extends_.substitute_substitute acyclic right]

/-- From an environment made from plain terms, two plain terms that are unified are unified ever after,
in either order, and without a change: in the environment that this leaves and in every one that further
unifications of plain terms make of it. -/
theorem unify_stays_solved (env : Env)
    (reachable : env.ReachableOn fun term => term.isPlain = true) (left right : Term)
    (plainLeft : left.isPlain = true) (plainRight : right.isPlain = true) (next : Env)
    (unified : env.unify left right = (true, next)) (later : Env)
    (grown : ReflTransGen (UnifiesOn fun term => term.isPlain = true) next later) :
    later.unify left right = (true, later) ∧ later.unify right left = (true, later) := by
  have acyclic := reachable.reachable.acyclic
  have reachableNext : next.ReachableOn fun term => term.isPlain = true := by
    have made := reachable.unify plainLeft plainRight
    rwa [unified] at made
  have reachableLater := reachableNext.further grown
  have acyclicLater := reachableLater.reachable.acyclic
  have plain := reachableLater.every hereditary_isPlain
  obtain ⟨extends_, -⟩ := extends_and_acyclic_of_unifies reachableNext.reachable.acyclic
    (grown.lift id fun _ _ => unifies_of_unifiesOn)
  have equal := extends_.substitute_eq acyclicLater (substitute_eq_of_unify acyclic unified)
  exact ⟨(unify_eq_self_iff acyclicLater plain plainLeft plainRight).mpr equal,
    (unify_eq_self_iff acyclicLater plain plainRight plainLeft).mpr equal.symm⟩

/-- Two terms that are made one through earlier bindings, and a later binding for a variable that they
share by then. -/
theorem unify_stays_solved_chained :
    let f := fun left right => Term.compound "f" [left, right]
    let left := f (.var "X") (.var "W")
    let right := f (f (.var "V") (.var "U")) (.var "Z")
    let next := (chained.unify left right).2
    let later := (next.unify (.var "U") (.compound "g" [.var "T"])).2
    later.toList = chained.toList ++ [("V", .atom "a"), ("Z", .var "U"), ("W", .var "U"),
        ("U", .compound "g" [.var "T"])] ∧
      later.unify left right = (true, later) ∧ later.unify right left = (true, later) := by
  intro f left right next later
  have reachable : chained.ReachableOn fun term => term.isPlain = true :=
    .unify (.unify (.unify .empty (by decide) (by decide)) (by decide) (by decide)) (by decide)
      (by decide)
  have grown : ReflTransGen (UnifiesOn fun term => term.isPlain = true) next later :=
    .single ⟨.var "U", .compound "g" [.var "T"], by decide, by decide, rfl⟩
  refine ⟨by decide +kernel, ?_⟩
  exact unify_stays_solved chained reachable left right (by decide) (by decide) next rfl later grown

end Env

end Backchain
