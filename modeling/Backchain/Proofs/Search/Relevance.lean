import Backchain.Proofs.Database
import Backchain.Proofs.Search.Refinement
import Backchain.Proofs.Search.Skeleton

/-!
What a search reads of its database.

A search looks up the signature of its first goal, and the goals that it comes to are the goals it
started with and goals of rules that it has looked up. Two databases that store the same clauses of all
these signatures, each in the same order, cannot be told apart by it: wherever the clauses stand, and
whatever other clauses there are, it does the same, down to the numbers of the rule copies.
-/
set_option autoImplicit false

namespace Backchain

namespace Database

/-- The signatures that are reached from some goals through the bodies of rules. -/
inductive LooksUp (database : Database) (goals : List Predicate) : Signature → Prop where
  | goal {goal : Predicate} (asked : goal ∈ goals) : LooksUp database goals goal.signature
  | body {rule : Rule} {goal : Predicate} (stored : rule ∈ database.rules)
      (head : LooksUp database goals rule.head.signature) (inBody : goal ∈ rule.goals) :
      LooksUp database goals goal.signature

/-- Both databases store the same facts and the same rules of a signature, each in the same order. -/
structure AgreeOn (database other : Database) (signature : Signature) : Prop where
  facts : (database.facts.toList.filter fun fact => fact.signature = signature) =
    other.facts.toList.filter fun fact => fact.signature = signature
  rules : (database.rules.toList.filter fun rule => rule.head.signature = signature) =
    other.rules.toList.filter fun rule => rule.head.signature = signature

variable {database other : Database}

instance (signature : Signature) : Decidable (AgreeOn database other signature) :=
  decidable_of_iff (_ ∧ _) ⟨fun both => ⟨both.1, both.2⟩, fun agree => ⟨agree.facts, agree.rules⟩⟩

theorem AgreeOn.factsOf_eq {signature : Signature} (agree : AgreeOn database other signature)
    (built : database.Built) (builtOther : other.Built) :
    other.factsOf signature = database.factsOf signature := by
  rw [built.indexed.factsOf_eq_filter, builtOther.indexed.factsOf_eq_filter, agree.facts]

theorem AgreeOn.rulesOf_eq {signature : Signature} (agree : AgreeOn database other signature)
    (built : database.Built) (builtOther : other.Built) :
    other.rulesOf signature = database.rulesOf signature := by
  rw [built.indexed.rulesOf_eq_filter, builtOther.indexed.rulesOf_eq_filter, agree.rules]

/-- What a rule of a signature that is looked up puts in front is looked up as well. -/
theorem LooksUp.copiedGoals {goals : List Predicate} {goal copied : Predicate} {rule : Rule}
    {number : Nat} (head : LooksUp database goals goal.signature)
    (found : rule ∈ database.rulesOf goal.signature) (built : database.Built)
    (member : copied ∈ rule.copiedGoals number) : LooksUp database goals copied.signature := by
  obtain ⟨origin, inBody, rfl⟩ := List.mem_map.mp member
  rw [built.indexed.rulesOf_eq_filter, List.mem_filter, decide_eq_true_eq] at found
  obtain ⟨stored, same⟩ := found
  rw [← same] at head
  rw [Predicate.signature_rename]
  exact .body (Array.mem_toList_iff.mp stored) head inBody

end Database

section

variable {σ α : Type}

theorem tryEach_congr {attempt other : α → Progress σ → Ending × Progress σ} {candidates : List α}
    (each : ∀ candidate ∈ candidates, attempt candidate = other candidate) :
    tryEach attempt candidates = tryEach other candidates := by
  induction candidates with
  | nil => rfl
  | cons candidate candidates ih =>
    obtain ⟨first, rest⟩ := List.forall_mem_cons.mp each
    funext progress
    rw [tryEach, tryEach, first, ih rest]

variable {database other : Database} {start : List Predicate}

theorem useRule_congr {limits : Limits} {expansions : Nat}
    {goOn goOnOther : List Predicate → Progress σ → Ending × Progress σ} (goal : Predicate)
    {rule : Rule} (same : ∀ number, goOn (rule.copiedGoals number) =
      goOnOther (rule.copiedGoals number)) :
    useRule limits expansions goOn goal rule = useRule limits expansions goOnOther goal rule := by
  funext progress
  simp only [useRule, same]

/-- The goals are followed through both searches at once: the first looks up what both databases agree
on, and the rest and the goals of the rules are such goals again. -/
theorem searchGoals_congr {limits : Limits} {visitor : Visitor σ} {expansions : Nat}
    {expand expandOther : List Predicate → Progress σ → Ending × Progress σ}
    (built : database.Built) (builtOther : other.Built)
    (agree : ∀ signature, database.LooksUp start signature → database.AgreeOn other signature)
    (later : ∀ goals, (∀ goal ∈ goals, database.LooksUp start goal.signature) →
      expand goals = expandOther goals)
    (goals : List Predicate) (looked : ∀ goal ∈ goals, database.LooksUp start goal.signature) :
    searchGoals database limits visitor expansions expand goals =
      searchGoals other limits visitor expansions expandOther goals := by
  induction goals with
  | nil => rfl
  | cons goal rest ih =>
    obtain ⟨lookedFirst, lookedRest⟩ := List.forall_mem_cons.mp looked
    have known := agree goal.signature lookedFirst
    have rules : tryEach (useRule limits expansions (fun goals => expand (goals ++ rest)) goal)
          (database.rulesOf goal.signature) =
        tryEach (useRule limits expansions (fun goals => expandOther (goals ++ rest)) goal)
          (database.rulesOf goal.signature) := by
      apply tryEach_congr
      intro rule found
      apply useRule_congr
      intro number
      apply later
      rw [List.forall_mem_append]
      exact ⟨fun _ member => lookedFirst.copiedGoals found built member, lookedRest⟩
    funext progress
    simp only [searchGoals]
    rw [known.factsOf_eq built builtOther, known.rulesOf_eq built builtOther, ih lookedRest, rules]

theorem search_congr (built : database.Built) (builtOther : other.Built)
    (agree : ∀ signature, database.LooksUp start signature → database.AgreeOn other signature)
    (limits : Limits) (visitor : Visitor σ) (fuel expansions : Nat) (goals : List Predicate)
    (looked : ∀ goal ∈ goals, database.LooksUp start goal.signature) :
    search database limits visitor fuel expansions goals =
      search other limits visitor fuel expansions goals := by
  induction fuel generalizing expansions goals with
  | zero => exact searchGoals_congr built builtOther agree (fun _ _ => rfl) goals looked
  | succ fuel ih =>
    exact searchGoals_congr built builtOther agree (ih (expansions + 1)) goals looked

end

/-- A search does the same in two databases that agree on all signatures reached from its goals: the
visitor is shown the same environments in the same order and collects the same, the search ends alike
and leaves the same environment and the same number of copies, whatever its limits. -/
theorem search_eq_of_agree (database other : Database) (goals : List Predicate)
    (built : database.Built) (builtOther : other.Built)
    (agree : ∀ signature, database.LooksUp goals signature → database.AgreeOn other signature) :
    ∀ {σ : Type} (limits : Limits) (visitor : Visitor σ),
      (∀ (fuel expansions : Nat) (env : Env) (copies : Nat) (seen : σ),
        search other limits visitor fuel expansions goals ⟨env, copies, seen⟩ =
            search database limits visitor fuel expansions goals ⟨env, copies, seen⟩ ∧
          shown other limits visitor fuel expansions goals env copies seen =
            shown database limits visitor fuel expansions goals env copies seen) ∧
      ∀ (env : Env) (copies : Nat) (seen : σ),
        let run := Search.each ⟨database, limits, copies⟩ visitor goals env seen
        let runOther := Search.each ⟨other, limits, copies⟩ visitor goals env seen
        runOther.1 = run.1 ∧ runOther.2.1 = run.2.1 ∧ runOther.2.2.copies = run.2.2.copies ∧
          Search.delivered ⟨other, limits, copies⟩ visitor goals env seen =
            Search.delivered ⟨database, limits, copies⟩ visitor goals env seen := by
  intro σ limits visitor
  have looked : ∀ goal ∈ goals, database.LooksUp goals goal.signature := fun _ asked => .goal asked
  have same := search_congr built builtOther agree limits visitor
  have recorded := search_congr built builtOther agree limits (Visitor.recorded visitor)
  constructor
  · intro fuel expansions env copies seen
    simp only [shown, same fuel expansions goals looked, recorded fuel expansions goals looked,
      and_self]
  · intro env copies seen
    simp only [Search.delivered, Search.each, same _ _ goals looked, recorded _ _ goals looked,
      and_self]

namespace Streets

/-- The streets among clauses about boats and about ways of another length, stored in another order. -/
def harbour : Database :=
  let x := Term.var "X"
  let y := Term.var "Y"
  let z := Term.var "Z"
  let direct : Rule := ⟨way x y, (street x y).toTerm, [street x y]⟩
  let further : Rule :=
    ⟨way x z, .conj (street x y).toTerm (way y z).toTerm, [street x y, way y z]⟩
  let boat : Predicate := ⟨"boat", [x, y]⟩
  let sail : Rule := ⟨boat, boat.toTerm, [boat]⟩
  let stay : Predicate := ⟨"way", [x]⟩
  let atSea := (((Database.empty.addRule sail).addRule direct).addFact stay).addFact
    (street (.atom "a") (.atom "b"))
  (((atSea.addFact ⟨"boat", [.atom "a", .atom "c"]⟩).addRule ⟨stay, boat.toTerm, [boat]⟩).addRule
    further).addFact (street (.atom "b") (.atom "c"))

theorem built_harbour : harbour.Built :=
  .fact (.rule (.rule (.fact (.fact (.fact (.rule (.rule .empty _) _) _) _) _) _) _) _

theorem signature_of_looksUp {signature : Signature}
    (looked : database.LooksUp [wayFromA] signature) :
    signature = ⟨"way", 2⟩ ∨ signature = ⟨"street", 2⟩ := by
  have inBodies : ∀ rule ∈ database.rules, ∀ goal ∈ rule.goals,
      goal.signature = ⟨"way", 2⟩ ∨ goal.signature = ⟨"street", 2⟩ := by decide
  cases looked with
  | goal asked =>
    obtain rfl := List.mem_singleton.mp asked
    exact .inl rfl
  | body stored _ inBody => exact inBodies _ stored _ inBody

end Streets

theorem search_eq_of_agree_harbour :
    let collected := Search.collector none
    let run := Search.each ⟨Streets.database, .ofDepth 4, 2⟩ collected [Streets.wayFromA]
      Streets.named #[]
    let runOther := Search.each ⟨Streets.harbour, .ofDepth 4, 2⟩ collected [Streets.wayFromA]
      Streets.named #[]
    run.2.1.size = 2 ∧ run.2.2.copies = 8 ∧ runOther.1 = run.1 ∧ runOther.2.1 = run.2.1 ∧
      runOther.2.2.copies = run.2.2.copies := by
  intro collected run runOther
  have agree : ∀ signature, Streets.database.LooksUp [Streets.wayFromA] signature →
      Streets.database.AgreeOn Streets.harbour signature := by
    intro signature looked
    rcases Streets.signature_of_looksUp looked with rfl | rfl <;> decide
  obtain ⟨ending, seen, copies, -⟩ := (search_eq_of_agree Streets.database Streets.harbour
    [Streets.wayFromA] Streets.built_database Streets.built_harbour agree (.ofDepth 4) collected).2
      Streets.named 2 #[]
  exact ⟨by rfl, by rfl, ending, seen, copies⟩

end Backchain
