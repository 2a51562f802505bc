import Backchain.Term.Basic

/-!
What can go wrong when clauses are stored, source is read or queries are answered.

A goal that does not unify is no error: it ends a branch of the search.
-/
set_option autoImplicit false

namespace Backchain

inductive Error where
  /-- A query has a part that is neither a predicate nor a conjunction. -/
  | malformedGoal (found : Kind)
  /-- The body of the rule with this head has a part that is neither a predicate nor a conjunction. -/
  | malformedRule (head : String) (found : Kind)
  /-- A branch needed more rule expansions than allowed. -/
  | depthLimitExceeded (limit : Nat)
  /-- A clause or query uses a name kept for the variables of rule copies. -/
  | reservedVariable (name : String)
  /-- No clause can be read from the source at this place; lines and columns count from one. -/
  | unreadable (line column : Nat) (found : String)
deriving DecidableEq

namespace Error

def message : Error → String
  | .malformedGoal found =>
    "malformed query goal: expected a predicate or conjunction, found " ++ found.text
  | .malformedRule head found =>
    "malformed body in rule `" ++ head ++ "`: expected a predicate or conjunction, found " ++
      found.text
  | .depthLimitExceeded limit =>
    "resolution depth limit of " ++ toString limit ++ " exceeded"
  | .reservedVariable name =>
    "variable name `" ++ name ++ "` is reserved: `#` marks renamed rule variables"
  | .unreadable line column found =>
    "parse error at line " ++ toString line ++ ", column " ++ toString column ++
      ": unexpected `" ++ found ++ "`"

end Error

end Backchain
