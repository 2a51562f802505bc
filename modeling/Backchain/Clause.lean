import Backchain.Term.Text

/-!
Clauses and programs, and their source text.
-/
set_option autoImplicit false

namespace Backchain

inductive Clause where
  | fact (predicate : Predicate)
  | rule (head : Predicate) (body : Term)
  | query (goal : Term)
deriving DecidableEq

abbrev Program :=
  List Clause

namespace Clause

/-- The word for the sort of clause. -/
def kind : Clause → String
  | .fact _ => "fact"
  | .rule _ _ => "rule"
  | .query _ => "query"

def text : Clause → String
  | .fact predicate => predicate.text ++ "."
  | .rule head body => head.text ++ " :- " ++ body.text ++ "."
  | .query goal => "?- " ++ goal.text ++ "."

end Clause

end Backchain
