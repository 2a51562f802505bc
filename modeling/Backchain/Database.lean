import Std.Data.TreeMap
import Backchain.Term.Goals
import Backchain.Term.Text

/-!
The clause database: facts and rules in the order they were stored.

For every name and number of arguments an index holds the places of the facts with that signature
and of the rules whose head has it, so a lookup reads only candidates and keeps their order.
-/
set_option autoImplicit false

namespace Backchain

/-- A rule: its head, its body as stored, and the goals of the body from left to right. -/
structure Rule where
  head : Predicate
  body : Term
  goals : List Predicate
deriving DecidableEq

namespace Rule

/-- The rule with this head and body, unless a part of the body is no goal. -/
def ofBody (head : Predicate) (body : Term) : Except Error Rule :=
  match body.goals with
  | .ok goals => .ok ⟨head, body, goals⟩
  | .error found => .error (.malformedRule head.text found)

end Rule

namespace Signature

/-- Signatures ordered by name, then by number of arguments. -/
def order : Signature → Signature → Ordering :=
  compareLex (compareOn name) (compareOn arity)

instance : Std.TransCmp order :=
  inferInstanceAs (Std.TransCmp (compareLex (compareOn name) (compareOn arity)))

instance : Std.LawfulEqCmp order where
  eq_of_compare := by
    intro first second same
    obtain ⟨name, arity⟩ := first
    obtain ⟨other, count⟩ := second
    simp only [order, compareLex_eq_eq, compareOn, Std.LawfulEqCmp.compare_eq_iff_eq] at same
    obtain ⟨rfl, rfl⟩ := same
    rfl

end Signature

/-- The places of the clauses of one signature, the oldest first. -/
structure Places where
  facts : Array Nat := #[]
  rules : Array Nat := #[]

structure Database where
  facts : Array Predicate
  rules : Array Rule
  places : Std.TreeMap Signature Places Signature.order

namespace Database

def empty : Database :=
  ⟨#[], #[], ∅⟩

instance : EmptyCollection Database :=
  ⟨empty⟩

/-- The number of clauses stored. -/
def size (database : Database) : Nat :=
  database.facts.size + database.rules.size

def isEmpty (database : Database) : Bool :=
  database.size == 0

def placesOf (database : Database) (signature : Signature) : Places :=
  database.places.getD signature {}

def addFact (database : Database) (fact : Predicate) : Database :=
  let known := database.placesOf fact.signature
  { database with
    facts := database.facts.push fact
    places := database.places.insert fact.signature
      { known with facts := known.facts.push database.facts.size } }

def addRule (database : Database) (rule : Rule) : Database :=
  let known := database.placesOf rule.head.signature
  { database with
    rules := database.rules.push rule
    places := database.places.insert rule.head.signature
      { known with rules := known.rules.push database.rules.size } }

/-- The facts of a signature, in the order they were stored. -/
def factsOf (database : Database) (signature : Signature) : List Predicate :=
  (database.placesOf signature).facts.toList.filterMap fun place => database.facts[place]?

/-- The rules whose head has a signature, in the order they were stored. -/
def rulesOf (database : Database) (signature : Signature) : List Rule :=
  (database.placesOf signature).rules.toList.filterMap fun place => database.rules[place]?

end Database

end Backchain
