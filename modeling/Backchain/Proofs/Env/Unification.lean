import Backchain.Proofs.Env.Descent

/-!
What unification promises.

Every operation on environments only adds bindings at the end or goes back to an initial part, so a
failure restores the environment exactly. From an acyclic environment, a success gives an acyclic one
whose solutions are the earlier solutions that make the two sides equal, and between plain terms a
failure means that there is no such solution.
-/
set_option autoImplicit false

namespace Backchain

namespace Env

/-! ## Growth -/

theorem assign_extends {env : Env} {name : String} (unbound : env.find? name = none) (term : Term) :
    (env.assign name term).2.Extends env := by
  unfold assign
  split
  · exact .refl env
  · exact extends_bind unbound term

/-- A walk only comes to unbound variables, so what is bound has not been bound before. -/
theorem meet_extends {descend : Env → List Term → List Term → Bool × Env} {env : Env}
    (grows : ∀ args others, (descend env args others).2.Extends env) (left right : Term) :
    (meet descend env left right).2.Extends env := by
  unfold meet
  split
  next first second walkLeft walkRight =>
    rw [meetRoots_eq]
    split
    next => exact .refl env
    next name term asked => exact assign_extends (unbound_of_walks walkLeft walkRight asked) term
    next => exact grows _ _
    next => exact .refl env
  next => exact .refl env

theorem meetAll_extends {meet : Env → Term → Term → Bool × Env}
    (grows : ∀ env left right, (meet env left right).2.Extends env) (env : Env)
    (lefts rights : List Term) : (meetAll meet env lefts rights).2.Extends env := by
  induction lefts generalizing env rights with
  | nil =>
    rw [meetAll]
    · exact .refl env
    · simp
  | cons left lefts ih =>
    cases rights with
    | nil => exact .refl env
    | cons right rights =>
      have step := grows env left right
      rw [meetAll]
      split
      next extended met =>
        rw [met] at step
        exact (ih extended rights).trans step
      next => exact step

theorem unifyBelow_extends (levels : Nat) (env : Env) (left right : Term) :
    (unifyBelow levels env left right).2.Extends env := by
  induction levels generalizing env left right with
  | zero => exact .refl env
  | succ levels ih =>
    exact meet_extends (fun args others => meetAll_extends ih env args others) left right

theorem extendAll_extends (env : Env) (lefts rights : List Term) :
    (env.extendAll lefts rights).2.Extends env := by
  apply meetAll_extends
  intro env left right
  apply meet_extends
  intro args others
  exact meetAll_extends (unifyBelow_extends _) env args others

theorem unifyPredicates_eq (env : Env) (left right : Predicate) :
    env.unifyPredicates left right =
      match env.unifiedPredicates? left right with
      | some extended => (true, extended)
      | none => (false, env) := by
  have grows := extendAll_extends env left.args right.args
  unfold unifiedPredicates? unifyPredicates
  by_cases same : left.signature = right.signature
  · simp only [if_pos same]
    generalize env.extendAll left.args right.args = outcome at grows
    obtain ⟨_ | _, next⟩ := outcome
    · simp only [settle, grows.undoTo]
    · rfl
  · simp only [if_neg same]

theorem extends_of_unifiedPredicates {env next : Env} {left right : Predicate}
    (unified : env.unifiedPredicates? left right = some next) : next.Extends env := by
  have grows := extendAll_extends env left.args right.args
  unfold unifiedPredicates? unifyPredicates at unified
  by_cases same : left.signature = right.signature
  · simp only [if_pos same] at unified
    generalize env.extendAll left.args right.args = outcome at grows unified
    obtain ⟨_ | _, later⟩ := outcome
    · cases unified
    · cases unified
      exact grows
  · simp [if_neg same] at unified

/-! ## Solutions -/

theorem meets_of_unifiedPredicates {env next : Env} {left right : Predicate}
    (acyclic : env.Acyclic) (unified : env.unifiedPredicates? left right = some next) :
    left.signature = right.signature ∧ Meets env left.args right.args (true, next) := by
  unfold unifiedPredicates? unifyPredicates at unified
  by_cases same : left.signature = right.signature
  · have run := extendAll_meets acyclic (congrArg Signature.arity same)
    simp only [if_pos same] at unified
    generalize env.extendAll left.args right.args = outcome at run unified
    obtain ⟨_ | _, later⟩ := outcome
    · cases unified
    · cases unified
      exact ⟨same, run⟩
  · simp [if_neg same] at unified

theorem meets_of_not_unifiedPredicates {env : Env} {left right : Predicate}
    (acyclic : env.Acyclic) (failed : env.unifiedPredicates? left right = none)
    (same : left.signature = right.signature) :
    ∃ next, Meets env left.args right.args (false, next) := by
  have run := extendAll_meets acyclic (congrArg Signature.arity same)
  unfold unifiedPredicates? unifyPredicates at failed
  simp only [if_pos same] at failed
  generalize env.extendAll left.args right.args = outcome at run failed
  obtain ⟨_ | _, later⟩ := outcome
  · exact ⟨later, run⟩
  · cases failed

theorem solvedBy_iff_of_unifiedPredicates {env next : Env} {left right : Predicate}
    (acyclic : env.Acyclic) (unified : env.unifiedPredicates? left right = some next)
    (value : String → Term) :
    next.SolvedBy value ↔ env.SolvedBy value ∧ left.bind value = right.bind value := by
  obtain ⟨same, run⟩ := meets_of_unifiedPredicates acyclic unified
  rw [run.solvedBy_iff acyclic value, Predicate.bind_eq_iff same]

theorem acyclic_of_unifiedPredicates {env next : Env} {left right : Predicate}
    (acyclic : env.Acyclic) (unified : env.unifiedPredicates? left right = some next) :
    next.Acyclic :=
  (meets_of_unifiedPredicates acyclic unified).2.acyclic acyclic

theorem every_of_unifiedPredicates {env next : Env} {left right : Predicate} {ok : Term → Prop}
    (hereditary : Hereditary ok) (acyclic : env.Acyclic)
    (unified : env.unifiedPredicates? left right = some next) (every : env.Every ok)
    (fineLeft : ∀ arg ∈ left.args, ok arg) (fineRight : ∀ arg ∈ right.args, ok arg) :
    next.Every ok :=
  (meets_of_unifiedPredicates acyclic unified).2.every hereditary acyclic every fineLeft fineRight

/-- Plain predicates that some solution makes equal are unified. -/
theorem unifiedPredicates_of_solution {env : Env} {left right : Predicate} {value : String → Term}
    (acyclic : env.Acyclic) (plain : env.Every fun term => term.isPlain = true)
    (plainLeft : left.IsPlain) (plainRight : right.IsPlain) (solved : env.SolvedBy value)
    (equal : left.bind value = right.bind value) :
    ∃ next, env.unifiedPredicates? left right = some next := by
  have same : left.signature = right.signature := by
    rw [← left.signature_bind value, equal, right.signature_bind]
  cases failed : env.unifiedPredicates? left right with
  | some next => exact ⟨next, rfl⟩
  | none =>
    obtain ⟨next, run⟩ := meets_of_not_unifiedPredicates acyclic failed same
    exact absurd ((Predicate.bind_eq_iff same).mp equal)
      (run.no_solution acyclic plain plainLeft plainRight solved)

/-! ## Reachable environments -/

/-- The environments that the operations make from the empty one. -/
inductive Reachable : Env → Prop where
  | empty : Reachable ∅
  | unify {env : Env} (before : Reachable env) (left right : Term) :
      Reachable (env.unify left right).2
  | unifyPredicates {env : Env} (before : Reachable env) (left right : Predicate) :
      Reachable (env.unifyPredicates left right).2
  | undoTo {env : Env} (before : Reachable env) (mark : Nat) : Reachable (env.undoTo mark)

theorem acyclic_settle {outcome : Bool × Env} (mark : Nat)
    (acyclic : outcome.2.Acyclic) : (settle mark outcome).2.Acyclic := by
  obtain ⟨_ | _, next⟩ := outcome
  · exact (extends_undoTo next mark).acyclic acyclic
  · exact acyclic

theorem Reachable.acyclic {env : Env} (reachable : env.Reachable) : env.Acyclic := by
  induction reachable with
  | empty => exact acyclic_empty
  | @unify env _ left right ih =>
    exact acyclic_settle env.size ((extendAll_meets_single ih left right).acyclic ih)
  | @unifyPredicates env _ left right ih =>
    unfold Env.unifyPredicates
    split
    · rename_i same
      exact acyclic_settle env.size
        ((extendAll_meets ih (congrArg Signature.arity same)).acyclic ih)
    · exact ih
  | undoTo _ mark ih => exact (extends_undoTo _ mark).acyclic ih

end Env

end Backchain
