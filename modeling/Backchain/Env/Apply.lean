import Backchain.Env.Basic
import Backchain.Term.Variables

/-!
Terms under an environment.

A bound variable stands for its term, whose own variables may be bound in turn. No binding leads
back to its own variable, so on one path every bound variable is met at most once: each function
below spends one unit on every variable it looks through, and the number of bindings is enough.

Unification walks to the root of a term before it binds anything. The walk takes the same steps as
`follow`, but it ends only at a root: if it is still at a bound variable when the fuel runs out, which
needs bindings that go round in a circle, it gives nothing.
-/
set_option autoImplicit false

namespace Backchain.Env

/-- Looks through at most `steps` bound variables at the root of a term. -/
def followBelow (env : Env) : Nat → Term → Term
  | 0, term => term
  | steps + 1, term =>
    match term with
    | .var name =>
      match env.find? name with
      | some bound => followBelow env steps bound
      | none => term
    | _ => term

/-- The term that a term stands for, up to its root: no bound variable is left there. -/
def follow (env : Env) (term : Term) : Term :=
  env.followBelow env.size term

/-- Looks through bound variables at the root of a term, as long as there is fuel. -/
def follow? (env : Env) : Nat → Term → Option Term
  | 0, _ => none
  | fuel + 1, term =>
    match term with
    | .var name =>
      match env.find? name with
      | some bound => follow? env fuel bound
      | none => some term
    | _ => some term

/-- The root of a term, where looking through each binding once leads to it. -/
def walk (env : Env) (term : Term) : Option Term :=
  env.follow? (env.size + 1) term

/-- The term that a name stands for, looking through at most `steps` variables on a path. -/
def valueBelow (env : Env) : Nat → String → Term
  | 0, name => .var name
  | steps + 1, name =>
    match env.find? name with
    | some bound => bound.bind (valueBelow env steps)
    | none => .var name

/-- Replaces bound variables throughout a term until none is left. -/
def substitute (env : Env) (term : Term) : Term :=
  term.bind (env.valueBelow env.size)

/-- Whether a name leads to the variable `target` through at most `steps` variables. -/
def leadsBelow (env : Env) (target : String) : Nat → String → Bool
  | 0, name => name == target
  | steps + 1, name =>
    match env.find? name with
    | some bound => bound.anyVar (leadsBelow env target steps)
    | none => name == target

/-- Whether the variable `target` is left somewhere in a term under the environment. -/
def occurs (env : Env) (target : String) (term : Term) : Bool :=
  term.anyVar (env.leadsBelow target env.size)

end Backchain.Env
