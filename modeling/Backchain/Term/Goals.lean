import Backchain.Error
import Backchain.Term.Variables

/-!
Terms as goals: the predicates that a goal asks for, a goal from predicates, and the variable names
that goals and clauses may use.
-/
set_option autoImplicit false

namespace Backchain

namespace Term

/-- The predicates to prove, from left to right, or the kind of the first part that is neither a
predicate nor a conjunction. -/
def goals : Term → Except Kind (List Predicate)
  | .compound name args => .ok [⟨name, args⟩]
  | .conj left right =>
    match goals left with
    | .error found => .error found
    | .ok first =>
      match goals right with
      | .error found => .error found
      | .ok second => .ok (first ++ second)
  | leaf => .error leaf.kind

/-- The conjunction of some predicates, nested to the right; none of no predicates. -/
def ofGoals? : List Predicate → Option Term
  | [] => none
  | [goal] => some goal.toTerm
  | goal :: goals => (ofGoals? goals).map (.conj goal.toTerm)

end Term

/-- Variables of rule copies carry this mark, so no clause or query may use it in a name. -/
def copyMark : Char :=
  '#'

def isReserved (name : String) : Bool :=
  name.toList.contains copyMark

/-- Accepts terms without reserved variable names and reports the first such name otherwise. -/
def checkNames : List Term → Except Error Unit
  | [] => .ok ()
  | term :: terms =>
    match term.findVar? isReserved with
    | some name => .error (.reservedVariable name)
    | none => checkNames terms

end Backchain
