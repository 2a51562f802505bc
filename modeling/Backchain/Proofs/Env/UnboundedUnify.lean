import Backchain.Proofs.Env.Unbounded

/-!
Unification without a bound.

The program bounds the descent of unification by counting. Here the recursion has fuel only: it looks
through bindings, checks for occurrences and descends into arguments as far as it takes, and gives
nothing when the fuel runs out. A run of the relation `Meets` is finite, and every step of it is a
recursion through an acyclic environment or a step of this one, so from every acyclic environment the
recursion ends, with the result of the program.
-/
set_option autoImplicit false

namespace Backchain

theorem Ends.map {α β : Type} {attempt : Nat → Option α} {result : α} (ends : Ends attempt result)
    (f : α → β) : Ends (fun fuel => (attempt fuel).map f) (f result) := by
  obtain ⟨enough, each⟩ := ends
  exact ⟨enough, fun fuel above => congrArg (Option.map f) (each fuel above)⟩

namespace Env

/-- Unifies two lists of the same length pair by pair, up to the first pair that fails. -/
def unifyEach? (unify : Env → Term → Term → Option (Bool × Env)) :
    Env → List Term → List Term → Option (Bool × Env)
  | env, left :: lefts, right :: rights => do
    match ← unify env left right with
    | (true, extended) => unifyEach? unify extended lefts rights
    | failed => return failed
  | env, _, _ => return (true, env)

/-- Does what the roots of two terms ask for. -/
def comply? (env : Env) (fuel : Nat)
    (descend : Env → List Term → List Term → Option (Bool × Env)) :
    Comparison → Option (Bool × Env)
  | .agree => return (true, env)
  | .bind name term => do
    if ← env.occurs? name fuel term then return (false, env) else return (true, env.bind name term)
  | .descend args others => descend env args others
  | .clash => return (false, env)

/-- Unifies two terms; a failure leaves the bindings made before it. -/
def unify? : Nat → Env → Term → Term → Option (Bool × Env)
  | 0, _, _, _ => none
  | fuel + 1, env, left, right => do
    let first ← env.follow? fuel left
    let second ← env.follow? fuel right
    env.comply? fuel (unifyEach? (unify? fuel)) (compareRoots first second)

/-- Unifies two predicates, leaving the environment as it was if they cannot be made one. -/
def unifyPredicates? (env : Env) (fuel : Nat) (left right : Predicate) : Option (Bool × Env) :=
  if left.signature = right.signature then
    (unifyEach? (unify? fuel) env left.args right.args).map (settle env.size)
  else some (false, env)

variable {env middle : Env} {left right : Term} {lefts rights : List Term}
  {outcome result : Bool × Env}

/-- The two terms are looked at first, whatever comes of it. -/
theorem ends_unify (acyclic : env.Acyclic)
    (later : Ends (fun fuel => env.comply? fuel (unifyEach? (unify? fuel))
      (compareRoots (env.follow left) (env.follow right))) outcome) :
    Ends (unify? · env left right) outcome :=
  .succ ((ends_follow acyclic left).bind ((ends_follow acyclic right).bind later))

theorem ends_unifyEach_cons_true (first : Ends (unify? · env left right) (true, middle))
    (later : Ends (fun fuel => unifyEach? (unify? fuel) middle lefts rights) result) :
    Ends (fun fuel => unifyEach? (unify? fuel) env (left :: lefts) (right :: rights)) result :=
  first.bind later

theorem ends_unifyEach_cons_false (first : Ends (unify? · env left right) (false, middle)) :
    Ends (fun fuel => unifyEach? (unify? fuel) env (left :: lefts) (right :: rights))
      (false, middle) :=
  first.bind (.pure _)

/-- The recursion ends with the result of the run: what looks through bindings ends because no binding
leads back, and the descents because the run is finite. -/
theorem Meets.ends (run : Meets env lefts rights result) (acyclic : env.Acyclic) :
    Ends (fun fuel => unifyEach? (unify? fuel) env lefts rights) result := by
  induction run with
  | nil env => exact .pure _
  | agree asked _ ih =>
    apply ends_unifyEach_cons_true _ (ih acyclic)
    apply ends_unify acyclic
    rw [asked]
    exact .pure _
  | @bind env _ _ _ _ _ name term asked apart _ ih =>
    have unbound := unbound_of_compareRoots acyclic asked
    apply ends_unifyEach_cons_true _ (ih (acyclic_bind acyclic unbound apart))
    apply ends_unify acyclic
    have checked := ends_occurs acyclic name term
    rw [apart] at checked
    rw [asked]
    exact checked.bind (.pure _)
  | @cyclic env _ _ _ _ name term asked inside =>
    apply ends_unifyEach_cons_false
    apply ends_unify acyclic
    have checked := ends_occurs acyclic name term
    rw [inside] at checked
    rw [asked]
    exact checked.bind (.pure _)
  | descend asked within _ ihWithin ihLater =>
    apply ends_unifyEach_cons_true _ (ihLater (within.acyclic acyclic))
    apply ends_unify acyclic
    rw [asked]
    exact ihWithin acyclic
  | fail asked _ ih =>
    apply ends_unifyEach_cons_false
    apply ends_unify acyclic
    rw [asked]
    exact ih acyclic
  | clash asked =>
    apply ends_unifyEach_cons_false
    apply ends_unify acyclic
    rw [asked]
    exact .pure _

/-- Two runs on the same pairs come to the same. -/
theorem Meets.unique {other : Bool × Env} (run : Meets env lefts rights result)
    (again : Meets env lefts rights other) (acyclic : env.Acyclic) : result = other :=
  (run.ends acyclic).unique (again.ends acyclic)

/-- What a run comes to, settled, is what the program answers. -/
theorem Meets.unify_eq (run : Meets env [left] [right] result) (acyclic : env.Acyclic) :
    env.unify left right = settle env.size result :=
  congrArg (settle env.size) ((extendAll_meets_single acyclic left right).unique run acyclic)

theorem extendAll_cons (env : Env) (left right : Term) (lefts rights : List Term) :
    env.extendAll (left :: lefts) (right :: rights) =
      match env.extendAll [left] [right] with
      | (true, extended) => extended.extendAll lefts rights
      | failed => failed := by
  simp only [extendAll, meetAll]
  generalize Env.meet _ env left right = outcome
  obtain ⟨_ | _, next⟩ := outcome <;> rfl

theorem unifyEach?_singleton (unify : Env → Term → Term → Option (Bool × Env)) (env : Env)
    (left right : Term) : unifyEach? unify env [left] [right] = unify env left right := by
  rw [unifyEach?]
  rcases unify env left right with _ | ⟨_ | _, next⟩ <;> rfl

theorem ends_single (acyclic : env.Acyclic) (left right : Term) :
    Ends (unify? · env left right) (env.extendAll [left] [right]) := by
  have ends := (extendAll_meets_single acyclic left right).ends acyclic
  simp only [unifyEach?_singleton] at ends
  exact ends

/-- Lists of different lengths are unified up to the end of the shorter one. -/
theorem ends_extendAll (acyclic : env.Acyclic) (lefts rights : List Term) :
    Ends (fun fuel => unifyEach? (unify? fuel) env lefts rights) (env.extendAll lefts rights) := by
  induction lefts generalizing env rights with
  | nil => exact .pure _
  | cons left lefts ih =>
    cases rights with
    | nil => exact .pure _
    | cons right rights =>
      have first := ends_single acyclic left right
      have kept := (extendAll_meets_single acyclic left right).acyclic acyclic
      rw [extendAll_cons]
      generalize env.extendAll [left] [right] = outcome at first kept
      obtain ⟨_ | _, middle⟩ := outcome
      · exact ends_unifyEach_cons_false first
      · exact ends_unifyEach_cons_true first (ih kept rights)

theorem ends_unifyPredicates (acyclic : env.Acyclic) (left right : Predicate) :
    Ends (env.unifyPredicates? · left right) (env.unifyPredicates left right) := by
  unfold unifyPredicates? unifyPredicates
  split
  next same => exact ((extendAll_meets acyclic (congrArg Signature.arity same)).ends acyclic).map _
  next => exact .pure _

/-- In every environment that the operations make, unification of any two terms, of any two argument
lists and of any two predicates ends, and with it all that is looked through, checked for occurrences
and descended into on the way: the recursion gives nothing when the fuel runs out in any of these.
What it comes to is what the program answers. -/
theorem unification_ends (env : Env) (reachable : env.Reachable) :
    (∀ left right, ∃ outcome, Ends (unify? · env left right) outcome ∧
        env.unify left right = settle env.size outcome) ∧
      (∀ lefts rights, Ends (fun fuel => unifyEach? (unify? fuel) env lefts rights)
        (env.extendAll lefts rights)) ∧
      ∀ left right, Ends (env.unifyPredicates? · left right) (env.unifyPredicates left right) := by
  have acyclic := reachable.acyclic
  refine ⟨?_, ends_extendAll acyclic, ends_unifyPredicates acyclic⟩
  intro left right
  exact ⟨env.extendAll [left] [right], ends_single acyclic left right, rfl⟩

/-- A descent into a bound term that binds one of its variables on the way, and an occurs check that
looks through a binding. -/
theorem unification_ends_chained :
    let f := fun left right => Term.compound "f" [left, right]
    let g := fun term => Term.compound "g" [term]
    chained.Reachable ∧
      (∃ next, Ends (fun fuel => unifyEach? (unify? fuel) chained [.var "X", .var "W"]
          [f (.var "V") (.var "V"), g (.var "X")]) (true, next) ∧
        next.toList = chained.toList ++
          [("V", .atom "a"), ("Z", .atom "a"), ("W", g (.var "X"))]) ∧
      Ends (fun fuel => unifyEach? (unify? fuel) chained [.var "Z"] [g (.var "X")])
        (false, chained) := by
  intro f g
  obtain ⟨-, ends, -⟩ := unification_ends chained reachable_chained
  exact ⟨reachable_chained, ⟨_, ends _ _, rfl⟩, ends [.var "Z"] [g (.var "X")]⟩

end Env

end Backchain
