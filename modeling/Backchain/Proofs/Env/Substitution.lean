import Backchain.Proofs.Env.MostGeneral

/-!
The algebra of substitution.

An environment binds variables to terms whose variables may be bound in turn, so substitution reads
through chains of bindings until nothing bound is left. Nothing is then left for it to do a second
time, nor for an earlier environment to do after a later one; and a later environment solves the
bindings of an earlier one, so that to substitute by the earlier one first changes nothing.
-/
set_option autoImplicit false

namespace Backchain

namespace Env

open Relation (ReflTransGen)

variable {env later : Env}

/-! ## What substitution leaves -/

/-- Nothing bound is left: by induction along the bindings, since they lead out of the term. -/
theorem free_of_mem_substitute (acyclic : env.Acyclic) (term : Term) :
    ∀ x ∈ (env.substitute term).occurrences, env.find? x = none := by
  induction term using induct_through acyclic with
  | free name free =>
    intro x occurs
    rw [substitute_var free] at occurs
    obtain rfl := List.mem_singleton.mp occurs
    exact free
  | bound name term bound ih => rwa [substitute_of_bound acyclic bound]
  | compound name args ih =>
    intro x occurs
    rw [substitute_compound, Term.occurrences_compound, List.flatMap_map] at occurs
    obtain ⟨arg, member, inside⟩ := List.mem_flatMap.mp occurs
    exact ih arg member x inside
  | conj left right ihLeft ihRight =>
    intro x occurs
    rcases List.mem_append.mp occurs with inLeft | inRight
    · exact ihLeft x inLeft
    · exact ihRight x inRight
  | _ => exact fun _ occurs => absurd occurs List.not_mem_nil

/-! ## Earlier and later environments -/

/-- To substitute by an earlier environment first changes nothing. -/
theorem Extends.substitute_substitute (extends_ : later.Extends env) (acyclic : later.Acyclic)
    (term : Term) : later.substitute (env.substitute term) = later.substitute term := by
  have solved : env.SolvedBy later.value := extends_.solvedBy (solvedBy_value acyclic)
  rw [substitute_eq_bind env, substitute_eq_bind, substitute_eq_bind, Term.bind_bind]
  exact Term.bind_congr fun x _ => bind_value solved x

/-- After a later environment nothing is left to substitute. -/
theorem Extends.substitute_of_substitute (extends_ : later.Extends env) (acyclic : later.Acyclic)
    (term : Term) : env.substitute (later.substitute term) = later.substitute term :=
  substitute_of_free fun x occurs =>
    extends_.find?_eq_none (free_of_mem_substitute acyclic term x occurs)

/-- One unification that succeeds. -/
def Unifies (env next : Env) : Prop :=
  ∃ left right, env.unify left right = (true, next)

theorem extends_and_acyclic_of_unifies (acyclic : env.Acyclic)
    (grown : ReflTransGen Unifies env later) : later.Extends env ∧ later.Acyclic := by
  induction grown with
  | refl => exact ⟨.refl env, acyclic⟩
  | tail _ step ih =>
    obtain ⟨left, right, unified⟩ := step
    have run := meets_of_unify ih.2 unified
    exact ⟨(run.extends ih.2).trans ih.1, run.acyclic ih.2⟩

/-- In every environment that the operations make, substitution leaves nothing bound, the occurs check
looks for a variable in what substitution leaves, and together with the substitution of an environment
that further unifications make of it, in either order, it is that later substitution. -/
theorem substitution_algebra (env : Env) (reachable : env.Reachable) (term : Term) :
    (∀ x ∈ (env.substitute term).occurrences, env.find? x = none) ∧
      (∀ x, env.occurs x term = true ↔ x ∈ (env.substitute term).occurrences) ∧
      ∀ later, ReflTransGen Unifies env later →
        later.substitute (env.substitute term) = later.substitute term ∧
          env.substitute (later.substitute term) = later.substitute term := by
  have acyclic := reachable.acyclic
  refine ⟨free_of_mem_substitute acyclic term, fun x => occurs_iff env x term, ?_⟩
  intro later grown
  obtain ⟨extends_, acyclicLater⟩ := extends_and_acyclic_of_unifies acyclic grown
  exact ⟨extends_.substitute_substitute acyclicLater term,
    extends_.substitute_of_substitute acyclicLater term⟩

/-- A variable that is bound through a chain, and one more binding for a variable that was left. -/
theorem substitution_algebra_chained :
    let term := Term.compound "g" [.var "X", .var "W"]
    let later := (chained.unify (.var "Z") (.var "W")).2
    chained.substitute term =
        .compound "g" [.compound "f" [.atom "a", .var "Z"], .var "W"] ∧
      chained.occurs "Z" term = true ∧ chained.occurs "Y" term = false ∧
      later.substitute (chained.substitute term) =
        .compound "g" [.compound "f" [.atom "a", .var "W"], .var "W"] ∧
      chained.substitute (later.substitute term) = later.substitute term := by
  intro term later
  have grown : ReflTransGen Unifies chained later := .single ⟨.var "Z", .var "W", rfl⟩
  obtain ⟨-, found, absorbs⟩ := substitution_algebra chained reachable_chained term
  obtain ⟨first, second⟩ := absorbs later grown
  refine ⟨rfl, (found "Z").mpr (by decide), ?_, first, second⟩
  exact Bool.eq_false_iff.mpr fun occurs => absurd ((found "Y").mp occurs) (by decide)

end Env

end Backchain
