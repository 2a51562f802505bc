import Backchain.Proofs.Env.Unbounded

/-!
Most general unifiers.

A run of unification that fails takes back exactly what it did, and one that succeeds keeps
everything, so its outcome is read off the run alone. Main statement: from a reachable environment
two plain terms are unified if and only if some substitution that respects the bindings makes them one,
and the substitutions that respect the new bindings are then exactly those.
-/
set_option autoImplicit false

namespace Backchain

namespace Env

/-! ## One unification -/

/-- All that unification does: a run that succeeds is kept, and one that fails is taken back. -/
theorem unify_cases {env : Env} (acyclic : env.Acyclic) (left right : Term) :
    (∃ next, env.unify left right = (true, next) ∧ Meets env [left] [right] (true, next)) ∨
      env.unify left right = (false, env) ∧ ∃ next, Meets env [left] [right] (false, next) := by
  have run := extendAll_meets_single acyclic left right
  unfold unify
  generalize env.extendAll [left] [right] = outcome at run
  obtain ⟨_ | _, next⟩ := outcome
  · exact .inr ⟨congrArg (Prod.mk false) (run.extends acyclic).undoTo, next, run⟩
  · exact .inl ⟨next, rfl, run⟩

theorem meets_of_unify {env next : Env} {left right : Term} (acyclic : env.Acyclic)
    (unified : env.unify left right = (true, next)) : Meets env [left] [right] (true, next) := by
  rcases unify_cases acyclic left right with ⟨later, same, run⟩ | ⟨failed, -⟩
  · rw [unified] at same
    cases same
    exact run
  · rw [unified] at failed
    cases failed

/-- The solutions of the new environment are the solutions of the old one that make both terms
one. -/
theorem solvedBy_iff_of_unify {env next : Env} {left right : Term} (acyclic : env.Acyclic)
    (unified : env.unify left right = (true, next)) (value : String → Term) :
    next.SolvedBy value ↔ env.SolvedBy value ∧ left.bind value = right.bind value := by
  rw [(meets_of_unify acyclic unified).solvedBy_iff acyclic value, List.map_singleton,
    List.map_singleton, List.singleton_inj]

/-- Unified terms stand for the same. -/
theorem substitute_eq_of_unify {env next : Env} {left right : Term} (acyclic : env.Acyclic)
    (unified : env.unify left right = (true, next)) : next.substitute left = next.substitute right := by
  have solved := solvedBy_value ((meets_of_unify acyclic unified).acyclic acyclic)
  rw [substitute_eq_bind, substitute_eq_bind]
  exact ((solvedBy_iff_of_unify acyclic unified next.value).mp solved).2

/-- Plain terms that some solution makes one are unified. -/
theorem unify_of_solution {env : Env} {left right : Term} {value : String → Term}
    (acyclic : env.Acyclic) (plain : env.Every fun term => term.isPlain = true)
    (plainLeft : left.isPlain = true) (plainRight : right.isPlain = true)
    (solved : env.SolvedBy value) (equal : left.bind value = right.bind value) :
    (env.unify left right).1 = true := by
  rcases unify_cases acyclic left right with ⟨next, unified, -⟩ | ⟨-, next, run⟩
  · rw [unified]
  · have apart := run.no_solution acyclic plain (List.forall_mem_singleton.mpr plainLeft)
      (List.forall_mem_singleton.mpr plainRight) solved
    exact absurd (congrArg (fun term => [term]) equal) apart

/-! ## Environments made from terms of one kind -/

/-- The environments that the operations make from the empty one when all terms that they are given
have a property. -/
inductive ReachableOn (ok : Term → Prop) : Env → Prop where
  | empty : ReachableOn ok ∅
  | unify {env : Env} (before : ReachableOn ok env) {left right : Term} (fineLeft : ok left)
      (fineRight : ok right) : ReachableOn ok (env.unify left right).2
  | unifyPredicates {env : Env} (before : ReachableOn ok env) {left right : Predicate}
      (fineLeft : ∀ arg ∈ left.args, ok arg) (fineRight : ∀ arg ∈ right.args, ok arg) :
      ReachableOn ok (env.unifyPredicates left right).2
  | undoTo {env : Env} (before : ReachableOn ok env) (mark : Nat) : ReachableOn ok (env.undoTo mark)

theorem Extends.every {ok : Term → Prop} {later earlier : Env} (extends_ : later.Extends earlier)
    (every : later.Every ok) : earlier.Every ok :=
  fun x term bound => every x term (extends_.find? bound)

section ReachableOn

variable {ok : Term → Prop} {env : Env}

theorem ReachableOn.reachable (reachable : env.ReachableOn ok) : env.Reachable := by
  induction reachable with
  | empty => exact .empty
  | unify _ _ _ ih => exact .unify ih _ _
  | unifyPredicates _ _ _ ih => exact .unifyPredicates ih _ _
  | undoTo _ mark ih => exact .undoTo ih mark

/-- What holds of a term's arguments with the term holds of every bound variable and its term. -/
theorem ReachableOn.every (hereditary : Hereditary ok) (reachable : env.ReachableOn ok) :
    env.Every ok := by
  induction reachable with
  | empty => exact every_empty ok
  | @unify env before left right fineLeft fineRight ih =>
    have acyclic := before.reachable.acyclic
    rcases unify_cases acyclic left right with ⟨next, unified, run⟩ | ⟨failed, -⟩
    · rw [unified]
      exact run.every_single hereditary acyclic ih fineLeft fineRight
    · rwa [failed]
  | @unifyPredicates env before left right fineLeft fineRight ih =>
    rw [unifyPredicates_eq]
    cases unified : env.unifiedPredicates? left right with
    | some next =>
      exact every_of_unifiedPredicates hereditary before.reachable.acyclic unified ih fineLeft
        fineRight
    | none => exact ih
  | undoTo _ mark ih => exact (extends_undoTo _ mark).every ih

end ReachableOn

/-! ## The unifier -/

/-- Between plain terms, in an environment made from plain terms, unification succeeds if and only if
there is a solution of the bindings that makes the terms one. Between any terms, success makes them one,
keeps the bindings, and adds bindings that every such solution solves: the environment is most
general. -/
theorem unify_most_general :
    (∀ env : Env, env.ReachableOn (fun term => term.isPlain = true) →
      ∀ left right : Term, left.isPlain = true → right.isPlain = true →
        ((env.unify left right).1 = true ↔
          ∃ value, env.SolvedBy value ∧ left.bind value = right.bind value)) ∧
    ∀ env : Env, env.Reachable → ∀ (next : Env) (left right : Term),
      env.unify left right = (true, next) →
        next.substitute left = next.substitute right ∧ next.Extends env ∧
          env.SolvedBy next.value ∧
          ∀ value, next.SolvedBy value ↔ env.SolvedBy value ∧ left.bind value = right.bind value := by
  constructor
  · intro env reachable left right plainLeft plainRight
    have acyclic := reachable.reachable.acyclic
    constructor
    · intro success
      have unified : env.unify left right = (true, (env.unify left right).2) := Prod.ext success rfl
      have solved := solvedBy_value ((meets_of_unify acyclic unified).acyclic acyclic)
      exact ⟨_, (solvedBy_iff_of_unify acyclic unified _).mp solved⟩
    · rintro ⟨value, solved, equal⟩
      exact unify_of_solution acyclic (reachable.every hereditary_isPlain) plainLeft plainRight solved
        equal
  · intro env reachable next left right unified
    have acyclic := reachable.acyclic
    have run := meets_of_unify acyclic unified
    have general := solvedBy_iff_of_unify acyclic unified
    obtain ⟨solved, equal⟩ := (general next.value).mp (solvedBy_value (run.acyclic acyclic))
    refine ⟨?_, run.extends acyclic, solved, general⟩
    rw [substitute_eq_bind, substitute_eq_bind]
    exact equal

/-- Two terms that are met through earlier bindings, and two that no finite terms make one. -/
theorem unify_most_general_chained :
    let f := fun left right => Term.compound "f" [left, right]
    let g := fun term => Term.compound "g" [term]
    let left := f (.var "X") (.var "W")
    let right := f (f (.var "V") (.var "V")) (g (.var "X"))
    let next := (chained.unify left right).2
    next.toList = chained.toList ++
        [("V", .atom "a"), ("Z", .atom "a"), ("W", g (.var "X"))] ∧
      next.substitute left = next.substitute right ∧
      (∀ value, chained.SolvedBy value → left.bind value = right.bind value →
        value "Z" = .atom "a") ∧
      ¬ ∃ value, chained.SolvedBy value ∧ value "Z" = (g (.var "X")).bind value := by
  intro f g left right next
  have reachable : chained.ReachableOn fun term => term.isPlain = true :=
    .unify (.unify (.unify .empty (by decide) (by decide)) (by decide) (by decide)) (by decide)
      (by decide)
  obtain ⟨solvable, general⟩ := unify_most_general
  obtain ⟨one, -, -, solutions⟩ := general chained reachable.reachable next left right rfl
  refine ⟨rfl, one, ?_, ?_⟩
  · intro value solved equal
    exact (solutions value).mpr ⟨solved, equal⟩ "Z" (.atom "a") rfl
  · have failed : (chained.unify (.var "Z") (g (.var "X"))).1 = false := rfl
    intro found
    have success := (solvable chained reachable (.var "Z") (g (.var "X")) rfl rfl).mpr found
    exact absurd success (by rw [failed]; decide)

end Env

end Backchain
