import Backchain.Term.Basic

/-!
The variables of a term: their occurrences from left to right, tests over them, and replacing them.

Every traversal is one recursion over the term and one over argument lists; the second is shown to
be the library operator on lists that it abbreviates.
-/
set_option autoImplicit false

namespace Backchain.Term

mutual

/-- Variable names from left to right, repeats kept. -/
def occurrences : Term → List String
  | .atom _ => []
  | .number _ => []
  | .string _ => []
  | .var name => [name]
  | .compound _ args => occurrencesAll args
  | .conj left right => occurrences left ++ occurrences right

def occurrencesAll : List Term → List String
  | [] => []
  | arg :: args => occurrences arg ++ occurrencesAll args

end

mutual

/-- Adds the variable names that are not there yet, from left to right. -/
def gather : Term → List String → List String
  | .atom _, names => names
  | .number _, names => names
  | .string _, names => names
  | .var name, names => if names.contains name then names else names ++ [name]
  | .compound _ args, names => gatherAll args names
  | .conj left right, names => gather right (gather left names)

def gatherAll : List Term → List String → List String
  | [], names => names
  | arg :: args, names => gatherAll args (gather arg names)

end

/-- The distinct variable names, in order of first occurrence. -/
def vars (term : Term) : List String :=
  gather term []

mutual

/-- Whether no variable occurs. -/
def isGround : Term → Bool
  | .atom _ => true
  | .number _ => true
  | .string _ => true
  | .var _ => false
  | .compound _ args => areGround args
  | .conj left right => isGround left && isGround right

def areGround : List Term → Bool
  | [] => true
  | arg :: args => isGround arg && areGround args

end

mutual

/-- The first variable name, from left to right, that passes a test. -/
def findVar? (test : String → Bool) : Term → Option String
  | .atom _ => none
  | .number _ => none
  | .string _ => none
  | .var name => if test name then some name else none
  | .compound _ args => findVarAmong? test args
  | .conj left right => findVar? test left <|> findVar? test right

def findVarAmong? (test : String → Bool) : List Term → Option String
  | [] => none
  | arg :: args => findVar? test arg <|> findVarAmong? test args

end

mutual

/-- Whether some variable name passes a test. -/
def anyVar (test : String → Bool) : Term → Bool
  | .atom _ => false
  | .number _ => false
  | .string _ => false
  | .var name => test name
  | .compound _ args => anyVarAmong test args
  | .conj left right => anyVar test left || anyVar test right

def anyVarAmong (test : String → Bool) : List Term → Bool
  | [] => false
  | arg :: args => anyVar test arg || anyVarAmong test args

end

mutual

/-- Replaces every variable by the term given for its name, all at once. -/
def bind (value : String → Term) : Term → Term
  | .atom name => .atom name
  | .number value => .number value
  | .string text => .string text
  | .var name => value name
  | .compound name args => .compound name (bindAll value args)
  | .conj left right => .conj (bind value left) (bind value right)

def bindAll (value : String → Term) : List Term → List Term
  | [] => []
  | arg :: args => bind value arg :: bindAll value args

end

/-- Renames every variable. -/
def rename (name : String → String) (term : Term) : Term :=
  term.bind fun x => .var (name x)

mutual

/-- The number of nodes. -/
def size : Term → Nat
  | .atom _ => 1
  | .number _ => 1
  | .string _ => 1
  | .var _ => 1
  | .compound _ args => sizeAll args + 1
  | .conj left right => size left + size right + 1

def sizeAll : List Term → Nat
  | [] => 0
  | arg :: args => size arg + sizeAll args

end

theorem occurrencesAll_eq_flatMap (args : List Term) :
    occurrencesAll args = args.flatMap occurrences := by
  induction args with
  | nil => rfl
  | cons arg args ih => simp [occurrencesAll, ih]

theorem gatherAll_eq_foldl (args : List Term) (names : List String) :
    gatherAll args names = args.foldl (fun names arg => gather arg names) names := by
  induction args generalizing names with
  | nil => rfl
  | cons arg args ih => rw [gatherAll, ih, List.foldl_cons]

theorem areGround_eq_all (args : List Term) : areGround args = args.all isGround := by
  induction args with
  | nil => rfl
  | cons arg args ih => simp [areGround, ih]

theorem findVarAmong?_eq_findSome? (test : String → Bool) (args : List Term) :
    findVarAmong? test args = args.findSome? (findVar? test) := by
  induction args with
  | nil => rfl
  | cons arg args ih =>
    simp only [findVarAmong?, ih, List.findSome?_cons]
    cases findVar? test arg <;> rfl

theorem anyVarAmong_eq_any (test : String → Bool) (args : List Term) :
    anyVarAmong test args = args.any (anyVar test) := by
  induction args with
  | nil => rfl
  | cons arg args ih => simp [anyVarAmong, ih]

theorem bindAll_eq_map (value : String → Term) (args : List Term) :
    bindAll value args = args.map (bind value) := by
  induction args with
  | nil => rfl
  | cons arg args ih => simp [bindAll, ih]

end Backchain.Term

namespace Backchain.Predicate

/-- Renames every variable of the arguments. -/
def rename (name : String → String) (p : Predicate) : Predicate :=
  { p with args := p.args.map (Term.rename name) }

end Backchain.Predicate
