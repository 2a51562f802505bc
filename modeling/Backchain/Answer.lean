import Backchain.Env.Apply
import Backchain.Term.Text

/-!
Answers: what a query tells its user.

An answer gives texts to variables, each at most once, in a fixed order. It shows the variables of
the query that an environment binds, with everything bound replaced; a variable that is still free
is shown by its name. The outcome of a query is a verdict for a ground goal and a list of answers
otherwise.
-/
set_option autoImplicit false

namespace Backchain

structure Answer where
  bindings : List (String × String)
  distinct : (bindings.map Prod.fst).Nodup
deriving DecidableEq

namespace Answer

/-- Gives a text to a name, in the place where the name already stands or else at the end. -/
def place (name text : String) : List (String × String) → List (String × String)
  | [] => [(name, text)]
  | (other, old) :: bindings =>
    if other = name then (other, text) :: bindings else (other, old) :: place name text bindings

theorem mem_names_place {name text other : String} {bindings : List (String × String)} :
    other ∈ (place name text bindings).map Prod.fst ↔
      other = name ∨ other ∈ bindings.map Prod.fst := by
  induction bindings with
  | nil => simp [place]
  | cons binding bindings ih =>
    obtain ⟨first, old⟩ := binding
    by_cases same : first = name
    · subst same
      simp [place]
    · rw [place, if_neg same, List.map_cons, List.mem_cons, ih, List.map_cons, List.mem_cons]
      simp only [or_left_comm]

theorem nodup_names_place {name text : String} {bindings : List (String × String)}
    (distinct : (bindings.map Prod.fst).Nodup) :
    ((place name text bindings).map Prod.fst).Nodup := by
  induction bindings with
  | nil => simp [place]
  | cons binding bindings ih =>
    obtain ⟨first, old⟩ := binding
    rw [List.map_cons, List.nodup_cons] at distinct
    by_cases same : first = name
    · rw [place, if_pos same, List.map_cons, List.nodup_cons]
      exact distinct
    · rw [place, if_neg same, List.map_cons, List.nodup_cons, mem_names_place]
      exact ⟨fun member => member.elim same distinct.1, ih distinct.2⟩

/-- The answer without bindings. -/
def empty : Answer :=
  ⟨[], List.nodup_nil⟩

def put (answer : Answer) (name text : String) : Answer :=
  ⟨place name text answer.bindings, nodup_names_place answer.distinct⟩

/-- The answer that takes the given texts one after another. -/
def ofList (bindings : List (String × String)) : Answer :=
  bindings.foldl (fun answer binding => answer.put binding.1 binding.2) empty

def get? (answer : Answer) (name : String) : Option String :=
  answer.bindings.lookup name

/-- The bindings as equations, or `true` when there is nothing to show. -/
def text (answer : Answer) : String :=
  match answer.bindings with
  | [] => "true"
  | bindings => ", ".intercalate (bindings.map fun (name, value) => name ++ " = " ++ value)

end Answer

namespace Env

/-- The bare text of what a name stands for, looking through at most `steps` variables on a path. -/
def shownBelow (env : Env) : Nat → String → String
  | 0, name => name
  | steps + 1, name =>
    match env.find? name with
    | some bound => bound.bareText (shownBelow env steps)
    | none => name

/-- The bare text of a term with everything bound replaced. -/
def render (env : Env) (term : Term) : String :=
  term.bareText (env.shownBelow env.size)

/-- Shows the bound ones of some variables, in their order. -/
def answer (env : Env) (names : List String) : Answer :=
  .ofList <| names.filterMap fun name =>
    (env.find? name).map fun bound => (name, env.render bound)

end Env

inductive Outcome where
  | proven (holds : Bool)
  | solutions (answers : List Answer)
deriving DecidableEq

namespace Outcome

/-- Whether the query holds, or has a solution. -/
def isSuccess : Outcome → Bool
  | .proven holds => holds
  | .solutions answers => !answers.isEmpty

/-- A verdict, or one line for each answer; no answers read as `false`. -/
def text : Outcome → String
  | .proven holds => if holds then "true" else "false"
  | .solutions [] => "false"
  | .solutions answers => "\n".intercalate (answers.map Answer.text)

end Outcome

end Backchain
