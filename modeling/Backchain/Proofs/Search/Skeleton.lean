import Backchain.Search
import Backchain.Proofs.Database
import Backchain.Proofs.Env.Unification

/-!
Proof skeletons and derivations.

A skeleton says which clause is used for each of a list of goals: a fact, or a rule together with a
skeleton for the goals of the rule. Clauses are named by their places in the database. A skeleton
derives a list of instances if each instance is an instance of its clause and, below a rule, the
skeleton of the rule derives the same instance of the goals of the rule.
-/
set_option autoImplicit false

namespace Backchain

/-- The clauses used for a list of goals: the clause for the first goal, then those for the rest. -/
inductive Skeleton where
  | done
  | fact (place : Nat) (rest : Skeleton)
  | rule (place : Nat) (parts rest : Skeleton)
deriving DecidableEq

namespace Skeleton

def append : Skeleton → Skeleton → Skeleton
  | .done, last => last
  | .fact place rest, last => .fact place (rest.append last)
  | .rule place parts rest, last => .rule place parts (rest.append last)

def take : Nat → Skeleton → Skeleton
  | count + 1, .fact place rest => .fact place (rest.take count)
  | count + 1, .rule place parts rest => .rule place parts (rest.take count)
  | _, _ => .done

def drop : Nat → Skeleton → Skeleton
  | count + 1, .fact _ rest => rest.drop count
  | count + 1, .rule _ _ rest => rest.drop count
  | _, skeleton => skeleton

theorem take_append_drop (count : Nat) (skeleton : Skeleton) :
    (skeleton.take count).append (skeleton.drop count) = skeleton := by
  induction skeleton generalizing count with
  | done => cases count <;> rfl
  | fact place rest ih =>
    cases count with
    | zero => rfl
    | succ count => rw [take, drop, append, ih]
  | rule place parts rest _ ih =>
    cases count with
    | zero => rfl
    | succ count => rw [take, drop, append, ih]

/-- Search order: the leftmost goal counts first, facts come before rules, and each in the order
they were stored. -/
inductive Before : Skeleton → Skeleton → Prop where
  | earlierFact {i j rest last} (earlier : i < j) : Before (.fact i rest) (.fact j last)
  | sameFact {i rest last} (later : Before rest last) : Before (.fact i rest) (.fact i last)
  | factRule {i j rest parts last} : Before (.fact i rest) (.rule j parts last)
  | earlierRule {i j parts others rest last} (earlier : i < j) :
      Before (.rule i parts rest) (.rule j others last)
  | within {i parts others rest last} (later : Before parts others) :
      Before (.rule i parts rest) (.rule i others last)
  | sameRule {i parts rest last} (later : Before rest last) :
      Before (.rule i parts rest) (.rule i parts last)

theorem not_before_self (skeleton : Skeleton) : ¬ Before skeleton skeleton := by
  induction skeleton with
  | done => intro before; cases before
  | fact place rest ih =>
    intro before
    cases before with
    | earlierFact earlier => exact Nat.lt_irrefl _ earlier
    | sameFact later => exact ih later
  | rule place parts rest ihParts ihRest =>
    intro before
    cases before with
    | earlierRule earlier => exact Nat.lt_irrefl _ earlier
    | within later => exact ihParts later
    | sameRule later => exact ihRest later

/-- The first goals decide, and the rest only if they have the same skeleton. -/
theorem before_take_drop {first second : Skeleton} (before : Before first second) (count : Nat) :
    Before (first.take count) (second.take count) ∨
      first.take count = second.take count ∧ Before (first.drop count) (second.drop count) := by
  induction before generalizing count with
  | earlierFact earlier =>
    cases count with
    | zero => exact .inr ⟨rfl, .earlierFact earlier⟩
    | succ count => exact .inl (.earlierFact earlier)
  | sameFact later ih =>
    cases count with
    | zero => exact .inr ⟨rfl, .sameFact later⟩
    | succ count =>
      rcases ih count with inside | ⟨same, after⟩
      · exact .inl (.sameFact inside)
      · exact .inr ⟨congrArg (Skeleton.fact _) same, after⟩
  | factRule =>
    cases count with
    | zero => exact .inr ⟨rfl, .factRule⟩
    | succ count => exact .inl .factRule
  | earlierRule earlier =>
    cases count with
    | zero => exact .inr ⟨rfl, .earlierRule earlier⟩
    | succ count => exact .inl (.earlierRule earlier)
  | within later =>
    cases count with
    | zero => exact .inr ⟨rfl, .within later⟩
    | succ count => exact .inl (.within later)
  | sameRule later ih =>
    cases count with
    | zero => exact .inr ⟨rfl, .sameRule later⟩
    | succ count =>
      rcases ih count with inside | ⟨same, after⟩
      · exact .inl (.sameRule inside)
      · exact .inr ⟨congrArg (Skeleton.rule _ _) same, after⟩

end Skeleton

/-- The instances that a skeleton derives when the variables of the facts have these values. Each
use of a rule takes its own values for the variables of the rule. -/
inductive Derives (database : Database) (value : String → Term) :
    Skeleton → List Predicate → Prop where
  | done : Derives database value .done []
  | fact {place fact rest goals} (stored : database.facts[place]? = some fact)
      (later : Derives database value rest goals) :
      Derives database value (.fact place rest) (fact.bind value :: goals)
  | rule {place rule parts rest goals} (inner : String → Term)
      (stored : database.rules[place]? = some rule)
      (within : Derives database value parts (rule.goals.map fun goal => goal.bind inner))
      (later : Derives database value rest goals) :
      Derives database value (.rule place parts rest) (rule.head.bind inner :: goals)

section

variable {database : Database} {value : String → Term} {skeleton : Skeleton}
  {first second : List Predicate}

theorem Derives.append {parts rest : Skeleton} (within : Derives database value parts first)
    (later : Derives database value rest second) :
    Derives database value (parts.append rest) (first ++ second) := by
  induction within with
  | done => exact later
  | fact stored _ ih => exact .fact stored ih
  | rule inner stored within _ _ ih => exact .rule inner stored within ih

theorem Derives.split (derives : Derives database value skeleton (first ++ second)) :
    Derives database value (skeleton.take first.length) first ∧
      Derives database value (skeleton.drop first.length) second := by
  induction first generalizing skeleton with
  | nil =>
    refine ⟨?_, ?_⟩
    · cases skeleton <;> exact .done
    · cases skeleton <;> exact derives
  | cons goal first ih =>
    rw [List.cons_append] at derives
    cases derives with
    | fact stored later =>
      obtain ⟨before, after⟩ := ih later
      exact ⟨.fact stored before, after⟩
    | rule inner stored within later =>
      obtain ⟨before, after⟩ := ih later
      exact ⟨.rule inner stored within before, after⟩

/-- A derivation depends on the values of the variables of facts only. -/
theorem Derives.congr {other : String → Term}
    (agree : ∀ fact ∈ database.facts, fact.bind value = fact.bind other)
    (derives : Derives database value skeleton first) : Derives database other skeleton first := by
  induction derives with
  | done => exact .done
  | fact stored _ ih =>
    rw [agree _ (Array.mem_of_getElem? stored)]
    exact .fact stored ih
  | rule inner stored _ _ within later => exact .rule inner stored within later

theorem Derives.single {goal : Predicate} (derives : Derives database value skeleton first)
    (member : goal ∈ first) : ∃ tree, Derives database value tree [goal] := by
  induction derives with
  | done => exact absurd member List.not_mem_nil
  | fact stored _ ih =>
    rcases List.mem_cons.mp member with rfl | later
    · exact ⟨_, .fact stored .done⟩
    · exact ih later
  | rule inner stored within _ _ ih =>
    rcases List.mem_cons.mp member with rfl | later
    · exact ⟨_, .rule inner stored within .done⟩
    · exact ih later

theorem Derives.of_each {goals : List Predicate}
    (each : ∀ goal ∈ goals, ∃ tree, Derives database value tree [goal]) :
    ∃ skeleton, Derives database value skeleton goals := by
  induction goals with
  | nil => exact ⟨.done, .done⟩
  | cons goal goals ih =>
    obtain ⟨tree, derives⟩ := each goal List.mem_cons_self
    obtain ⟨skeleton, later⟩ := ih fun other member => each other (List.mem_cons_of_mem _ member)
    exact ⟨tree.append skeleton, derives.append later⟩

end

/-! ## An example -/

namespace Streets

def street (first last : Term) : Predicate :=
  ⟨"street", [first, last]⟩

def way (first last : Term) : Predicate :=
  ⟨"way", [first, last]⟩

/-- A way is a street, or a street and a way on from its end. -/
def database : Database :=
  let x := Term.var "X"
  let y := Term.var "Y"
  let z := Term.var "Z"
  let direct : Rule := ⟨way x y, (street x y).toTerm, [street x y]⟩
  let further : Rule :=
    ⟨way x z, .conj (street x y).toTerm (way y z).toTerm, [street x y, way y z]⟩
  let facts := (Database.empty.addFact (street (.atom "a") (.atom "b"))).addFact
    (street (.atom "b") (.atom "c"))
  (facts.addRule direct).addRule further

theorem built_database : database.Built :=
  .rule (.rule (.fact (.fact .empty _) _) _) _

def search : Search :=
  ⟨database, .ofDepth 4, 0⟩

def wayFromA : Predicate :=
  way (.atom "a") (.var "W")

/-- An environment in which the end of the way has a second name. -/
def named : Env :=
  ((∅ : Env).unify (.var "W") (.var "V")).2

theorem reachable_named : named.Reachable :=
  .unify .empty _ _

end Streets

end Backchain
