import Backchain.Proofs.Env.Meets

/-!
What unification gives to insertion.

For a bound name, `bind` overwrites the term. Here unification is written once more, with any other
insertion in the place of `bind`. If the other one agrees with `bind` for unbound names, nothing is
changed by it, whatever it makes of a bound name: a name to be bound is where a walk has ended, and a
walk ends at no bound variable.
-/
set_option autoImplicit false

namespace Backchain

namespace Env

/-- An insertion that binds unbound names as `bind` does; it may do anything for bound ones. -/
def BindsUnbound (insert : Env → String → Term → Env) : Prop :=
  ∀ env name term, env.find? name = none → insert env name term = env.bind name term

section

variable (insert : Env → String → Term → Env)

def meetRootsBy (descend : Env → List Term → List Term → Bool × Env) (env : Env)
    (left right : Term) : Bool × Env :=
  match compareRoots left right with
  | .agree => (true, env)
  | .bind name term => if env.occurs name term then (false, env) else (true, insert env name term)
  | .descend args others => descend env args others
  | .clash => (false, env)

def meetBy (descend : Env → List Term → List Term → Bool × Env) (env : Env) (left right : Term) :
    Bool × Env :=
  match env.walk left, env.walk right with
  | some left, some right => meetRootsBy insert descend env left right
  | _, _ => (false, env)

def unifyBelowBy : Nat → Env → Term → Term → Bool × Env
  | 0, env, _, _ => (false, env)
  | levels + 1, env, left, right =>
    meetBy insert (fun env args others => meetAll (unifyBelowBy levels) env args others) env left
      right

/-- Unifies argument lists and makes each binding by the given insertion. -/
def extendAllBy (env : Env) (lefts rights : List Term) : Bool × Env :=
  meetAll (fun env left right =>
    meetBy insert (fun env args others =>
      meetAll (unifyBelowBy insert (env.levels args others)) env args others) env left right)
    env lefts rights

end

variable {insert : Env → String → Term → Env}

theorem meetBy_eq (agrees : BindsUnbound insert) :
    meetBy insert = meet := by
  funext descend env left right
  unfold meetBy meet
  cases walkLeft : env.walk left with
  | none => rfl
  | some first =>
    cases walkRight : env.walk right with
    | none => rfl
    | some second =>
      simp only [meetRootsBy, meetRoots_eq]
      cases asked : compareRoots first second with
      | bind name term =>
        have unbound := unbound_of_walks walkLeft walkRight asked
        simp only [assign, agrees env name term unbound]
      | _ => rfl

theorem unifyBelowBy_eq (agrees : BindsUnbound insert) (levels : Nat) :
    unifyBelowBy insert levels = unifyBelow levels := by
  induction levels with
  | zero => rfl
  | succ levels ih =>
    funext env left right
    rw [unifyBelowBy, unifyBelow, meetBy_eq agrees, ih]

/-- Unification binds unbound names only: it does not depend on what insertion makes of bound ones. -/
theorem extendAllBy_eq (agrees : BindsUnbound insert) (env : Env) (lefts rights : List Term) :
    env.extendAllBy insert lefts rights = env.extendAll lefts rights := by
  simp only [extendAllBy, extendAll, meetBy_eq agrees, unifyBelowBy_eq agrees]

end Env

end Backchain
