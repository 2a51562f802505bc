import Backchain.Env.Apply

/-!
Unification: extending an environment until two terms become one.

Both terms are walked to their roots. A variable is bound to the other side unless it occurs
there; leaves must be the same leaf; compounds must share name and number of arguments, and then
their arguments are unified from left to right, each pair in the environment that the pairs before
it left. A conjunction unifies with nothing but a variable.

Descending through bound variables is bounded by counting: a path through the two terms meets each
variable at most once and otherwise stays inside a term that was there at the start, so it is no
longer than the number of variables times the greatest height, and the weight bounds both.
-/
set_option autoImplicit false

namespace Backchain

namespace Env

/-- Binds a variable to a term, unless the variable occurs in it. -/
def assign (env : Env) (name : String) (term : Term) : Bool × Env :=
  if env.occurs name term then (false, env) else (true, env.bind name term)

/-- Unifies two roots and hands the arguments of compounds to `descend`. -/
def meetRoots (descend : Env → List Term → List Term → Bool × Env) (env : Env) (left right : Term) :
    Bool × Env :=
  match left, right with
  | .var x, .var y => if x = y then (true, env) else env.assign x (.var y)
  | .var x, term => env.assign x term
  | term, .var y => env.assign y term
  | .atom a, .atom b => (a == b, env)
  | .number a, .number b => (a == b, env)
  | .string a, .string b => (a == b, env)
  | .compound f args, .compound g others =>
    if f = g ∧ args.length = others.length then descend env args others else (false, env)
  | _, _ => (false, env)

/-- Unifies two terms at the roots that they are walked to. -/
def meet (descend : Env → List Term → List Term → Bool × Env) (env : Env) (left right : Term) :
    Bool × Env :=
  match env.walk left, env.walk right with
  | some left, some right => meetRoots descend env left right
  | _, _ => (false, env)

/-- Meets two lists of the same length pair by pair, up to the first pair that fails. -/
def meetAll (meet : Env → Term → Term → Bool × Env) :
    Env → List Term → List Term → Bool × Env
  | env, left :: lefts, right :: rights =>
    match meet env left right with
    | (true, extended) => meetAll meet extended lefts rights
    | failed => failed
  | env, _, _ => (true, env)

/-- Unifies two terms, descending through at most `levels` compounds. -/
def unifyBelow : Nat → Env → Term → Term → Bool × Env
  | 0, env, _, _ => (false, env)
  | levels + 1, env, left, right =>
    meet (fun env args others => meetAll (unifyBelow levels) env args others) env left right

/-- A bound on the compounds that unification can descend through from these arguments. -/
def levels (env : Env) (args others : List Term) : Nat :=
  let bound := env.weight + Term.sizeAll args + Term.sizeAll others + 1
  bound * bound

/-- Unifies argument lists; a failure leaves the bindings made before it. -/
def extendAll (env : Env) (lefts rights : List Term) : Bool × Env :=
  meetAll (fun env left right =>
    meet (fun env args others =>
      meetAll (unifyBelow (env.levels args others)) env args others) env left right)
    env lefts rights

/-- Keeps the bindings of a success and takes back those of a failure. -/
def settle (mark : Nat) : Bool × Env → Bool × Env
  | (true, env) => (true, env)
  | (false, env) => (false, env.undoTo mark)

/-- Unifies two terms, leaving the environment as it was if they cannot be made one. -/
def unify (env : Env) (left right : Term) : Bool × Env :=
  let mark := env.size
  settle mark (env.extendAll [left] [right])

/-- Unifies two predicates; different names or numbers of arguments fail at once. -/
def unifyPredicates (env : Env) (left right : Predicate) : Bool × Env :=
  if left.signature = right.signature then
    let mark := env.size
    settle mark (env.extendAll left.args right.args)
  else (false, env)

/-- The extension that makes two terms one, if there is one. -/
def unified? (env : Env) (left right : Term) : Option Env :=
  match env.unify left right with
  | (true, extended) => some extended
  | (false, _) => none

/-- The extension that makes two predicates one, if there is one. -/
def unifiedPredicates? (env : Env) (left right : Predicate) : Option Env :=
  match env.unifyPredicates left right with
  | (true, extended) => some extended
  | (false, _) => none

end Env

end Backchain
