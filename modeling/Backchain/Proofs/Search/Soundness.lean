import Backchain.Proofs.Env.Unification
import Backchain.Proofs.Search.Refinement
import Backchain.Proofs.Search.Skeleton

/-!
Everything that a search finds is an answer.

An answer to some goals extends the environment that the search started from, and its values turn the
goals into derived instances. Going back from a found environment to the start, each step puts one
clause in front: unification made the goal and the clause equal for all solutions of what came later,
and the values of an acyclic environment are one of its solutions.
-/
set_option autoImplicit false

namespace Backchain

/-- An environment that answers goals, found from another one. -/
structure Answers (database : Database) (goals : List Predicate) (env answer : Env) : Prop where
  extends_ : answer.Extends env
  acyclic : answer.Acyclic
  derives : ∃ skeleton,
    Derives database answer.value skeleton (goals.map fun goal => goal.bind answer.value)

variable {database : Database} {goals rest : List Predicate} {goal : Predicate}
  {env extended answer : Env}

theorem Answers.bind_eq {head : Predicate} (answers : Answers database goals extended answer)
    (acyclic : env.Acyclic) (unified : env.unifiedPredicates? goal head = some extended) :
    goal.bind answer.value = head.bind answer.value := by
  have solved := answers.extends_.solvedBy (Env.solvedBy_value answers.acyclic)
  exact ((Env.solvedBy_iff_of_unifiedPredicates acyclic unified _).mp solved).2

theorem Answers.nil (acyclic : env.Acyclic) : Answers database [] env env :=
  ⟨.refl env, acyclic, .done, .done⟩

theorem Answers.fact {place : Nat} {fact : Predicate}
    (answers : Answers database rest extended answer) (acyclic : env.Acyclic)
    (unified : env.unifiedPredicates? goal fact = some extended)
    (stored : database.facts[place]? = some fact) : Answers database (goal :: rest) env answer := by
  obtain ⟨skeleton, derives⟩ := answers.derives
  refine ⟨answers.extends_.trans (Env.extends_of_unifiedPredicates unified), answers.acyclic,
    .fact place skeleton, ?_⟩
  rw [List.map_cons, answers.bind_eq acyclic unified]
  exact .fact stored derives

theorem copiedGoals_bind (rule : Rule) (number : Nat) (value : String → Term) :
    (rule.copiedGoals number).map (fun goal => goal.bind value) =
      rule.goals.map fun goal => goal.bind fun x => value (copyName number x) := by
  simp [Rule.copiedGoals, Predicate.bind_rename]

theorem copiedHead_bind (rule : Rule) (number : Nat) (value : String → Term) :
    (rule.copiedHead number).bind value = rule.head.bind fun x => value (copyName number x) :=
  Predicate.bind_rename _ _ _

theorem Answers.rule {place number : Nat} {rule : Rule}
    (answers : Answers database (rule.copiedGoals number ++ rest) extended answer)
    (acyclic : env.Acyclic)
    (unified : env.unifiedPredicates? goal (rule.copiedHead number) = some extended)
    (stored : database.rules[place]? = some rule) : Answers database (goal :: rest) env answer := by
  obtain ⟨skeleton, derives⟩ := answers.derives
  rw [List.map_append, copiedGoals_bind] at derives
  obtain ⟨within, later⟩ := derives.split
  have derived := Derives.rule _ stored within later
  rw [← copiedHead_bind, ← answers.bind_eq acyclic unified] at derived
  exact ⟨answers.extends_.trans (Env.extends_of_unifiedPredicates unified), answers.acyclic, _,
    derived⟩

/-! ## Listings -/

namespace Listing

theorem mem_andThen {first : Listing} {next : Nat → Listing} {env : Env}
    (member : env ∈ (first.andThen next).envs) :
    env ∈ first.envs ∨ env ∈ (next first.copies).envs := by
  unfold andThen at member
  split at member
  · rwa [envs, List.map_append, List.mem_append] at member
  · exact .inl member

end Listing

theorem mem_listEach {α : Type} {attempt : α → Nat → Listing} {candidates : List α} {copies : Nat}
    (member : answer ∈ (listEach attempt candidates copies).envs) :
    ∃ candidate ∈ candidates, ∃ copies, answer ∈ (attempt candidate copies).envs := by
  induction candidates generalizing copies with
  | nil => exact absurd member List.not_mem_nil
  | cons candidate candidates ih =>
    rcases Listing.mem_andThen member with here | later
    · exact ⟨candidate, List.mem_cons_self, copies, here⟩
    · obtain ⟨other, inside, copies, found⟩ := ih later
      exact ⟨other, List.mem_cons_of_mem _ inside, copies, found⟩

theorem listGoals_answers {limits : Limits} {expansions : Nat}
    {expand : List Predicate → Env → Nat → Listing}
    (later : ∀ goals env copies, env.Acyclic → ∀ answer ∈ (expand goals env copies).envs,
      Answers database goals env answer)
    (goals : List Predicate) (env : Env) (copies : Nat) (acyclic : env.Acyclic) :
    ∀ answer ∈ (listGoals database limits expansions expand goals env copies).envs,
      Answers database goals env answer := by
  induction goals generalizing env copies with
  | nil =>
    intro answer member
    obtain rfl : answer = env := by simpa [listGoals, Listing.envs] using member
    exact .nil acyclic
  | cons goal rest ih =>
    intro answer member
    rw [listGoals] at member
    rcases Listing.mem_andThen member with byFact | byRule
    · obtain ⟨fact, inside, copies, found⟩ := mem_listEach byFact
      obtain ⟨place, stored⟩ := exists_place_of_mem_factsOf inside
      unfold listFact at found
      split at found
      · exact absurd found List.not_mem_nil
      · rename_i extended unified
        have acyclicNext := Env.acyclic_of_unifiedPredicates acyclic unified
        exact (ih extended copies acyclicNext answer found).fact acyclic unified stored
    · obtain ⟨rule, inside, copies, found⟩ := mem_listEach byRule
      obtain ⟨place, stored⟩ := exists_place_of_mem_rulesOf inside
      simp only [listRule] at found
      split at found
      · exact absurd found List.not_mem_nil
      · rename_i extended unified
        have acyclicNext := Env.acyclic_of_unifiedPredicates acyclic unified
        split at found
        · exact absurd found List.not_mem_nil
        · exact (later _ extended _ acyclicNext answer found).rule acyclic unified stored

theorem listing_answers (database : Database) (limits : Limits) (fuel expansions : Nat)
    (goals : List Predicate) (env : Env) (copies : Nat) (acyclic : env.Acyclic) :
    ∀ answer ∈ (listing database limits fuel expansions goals env copies).envs,
      Answers database goals env answer := by
  induction fuel generalizing expansions goals env copies with
  | zero =>
    have abandoned : ∀ (goals : List Predicate) (env : Env) (copies : Nat), env.Acyclic →
        ∀ answer ∈ (Listing.mk [] .unfinished copies).envs, Answers database goals env answer :=
      fun _ _ _ _ _ member => absurd member List.not_mem_nil
    exact listGoals_answers abandoned goals env copies acyclic
  | succ fuel ih => exact listGoals_answers (ih (expansions + 1)) goals env copies acyclic

/-- Whatever the search delivers, to a visitor, among all environments or as the first one, extends
the environment it started from, and every goal has a derivation tree for the values that the
environment gives: the leaves are facts under these values, and each inner node is an instance of a
rule with the same instance of the goals of the rule, in order, below it. -/
theorem deliveries_derived {σ : Type} (s : Search) (visitor : Visitor σ) (goals : List Predicate)
    (env : Env) (seen : σ) (reachable : env.Reachable) :
    let sound := fun answer : Env => env.toList <+: answer.toList ∧
      ∀ goal ∈ goals, ∃ tree, Derives s.database answer.value tree [goal.bind answer.value]
    (∀ answer ∈ s.delivered visitor goals env seen, sound answer) ∧
      (∀ answers, (s.all goals env).1 = .ok answers → ∀ answer ∈ answers, sound answer) ∧
      ∀ answer, (s.first? goals env).1 = .ok (some answer) → sound answer := by
  intro sound
  have found : ∀ answer ∈ (s.listing goals env).envs, sound answer := by
    intro answer member
    have answers := listing_answers s.database s.limits s.limits.fuel 0 goals env s.copies
      reachable.acyclic answer member
    obtain ⟨skeleton, derives⟩ := answers.derives
    exact ⟨answers.extends_, fun goal inside => derives.single (List.mem_map_of_mem inside)⟩
  refine ⟨?_, ?_, ?_⟩
  · intro answer member
    exact found answer ((s.delivered_prefix visitor goals env seen).subset member)
  · intro answers finished
    rw [Search.all_eq] at finished
    obtain ⟨-, rfl⟩ := Search.exhausted_of_answer finished
    exact found
  · intro answer finished
    rw [Search.first?_eq] at finished
    apply found answer
    split at finished
    · obtain ⟨-, same⟩ := Search.exhausted_of_answer finished
      cases same
    · rename_i first _ same
      rw [Except.ok.injEq, Option.some.injEq] at finished
      rw [same, ← finished]
      exact List.mem_cons_self

theorem deliveries_derived_streets :
    (Streets.search.delivered (Search.collector none) [Streets.wayFromA] Streets.named #[]).length =
        2 ∧
      ∀ answer ∈
          Streets.search.delivered (Search.collector none) [Streets.wayFromA] Streets.named #[],
        ∃ tree, Derives Streets.database answer.value tree [Streets.wayFromA.bind answer.value] := by
  refine ⟨by rfl, ?_⟩
  intro answer delivered
  have sound := (deliveries_derived Streets.search (Search.collector none) [Streets.wayFromA]
    Streets.named #[] Streets.reachable_named).1
  exact (sound answer delivered).2 Streets.wayFromA List.mem_cons_self

end Backchain
