import Mathlib.Algebra.Order.BigOperators.Group.List
import Mathlib.Algebra.Ring.Nat
import Mathlib.Data.Finset.Card
import Backchain.Proofs.Database
import Backchain.Proofs.Search.DepthLimit
import Backchain.Proofs.Search.Termination

/-!
Programs without recursion.

The signatures can be ranked so that the goals of a rule are below its head. Then a goal weighs more
than all the goals that a rule puts in its place, however many these are: there is a greatest number of
goals in a body, and a goal of one rank weighs more than that many goals of lower ranks. Matching a fact
takes the weight of a goal away, so the weight of the goals at the start bounds the expansions on every
branch, and a search without a limit comes to its full end.
-/
set_option autoImplicit false

namespace Backchain

/-- The weight of some goals, where a goal weighs as much as `width + 1` goals of the next lower
rank. -/
def weight (rank : Signature → Nat) (width : Nat) (goals : List Predicate) : Nat :=
  (goals.map fun goal => (width + 1) ^ rank goal.signature).sum

/-- Each goal of a rule has a lower rank than the head, and no body has more goals than this. -/
structure Database.Ranked (database : Database) (rank : Signature → Nat) (width : Nat) : Prop where
  lower : ∀ rule ∈ database.rules, ∀ goal ∈ rule.goals,
    rank goal.signature < rank rule.head.signature
  narrow : ∀ rule ∈ database.rules, rule.goals.length ≤ width

section

variable {rank : Signature → Nat} {width : Nat}

theorem weight_cons (goal : Predicate) (rest : List Predicate) :
    weight rank width (goal :: rest) = (width + 1) ^ rank goal.signature + weight rank width rest := by
  rw [weight, List.map_cons, List.sum_cons, weight]

theorem weight_append (first second : List Predicate) :
    weight rank width (first ++ second) = weight rank width first + weight rank width second := by
  rw [weight, List.map_append, List.sum_append, weight, weight]

theorem weight_mul_le {goals : List Predicate} {most : Nat}
    (lower : ∀ goal ∈ goals, rank goal.signature < most) :
    weight rank width goals * (width + 1) ≤ goals.length * (width + 1) ^ most := by
  induction goals with
  | nil => simp [weight]
  | cons goal rest ih =>
    obtain ⟨first, others⟩ := List.forall_mem_cons.mp lower
    have here : (width + 1) ^ rank goal.signature * (width + 1) ≤ (width + 1) ^ most := by
      rw [← Nat.pow_succ]
      exact Nat.pow_le_pow_right (Nat.succ_pos width) first
    have later := ih others
    rw [weight_cons, List.length_cons, Nat.add_mul, Nat.succ_mul]
    omega

/-- So many goals of lower ranks weigh less than one goal. -/
theorem weight_lt {goals : List Predicate} {most : Nat} (few : goals.length ≤ width)
    (lower : ∀ goal ∈ goals, rank goal.signature < most) :
    weight rank width goals < (width + 1) ^ most := by
  have positive : 0 < (width + 1) ^ most := Nat.pow_pos (Nat.succ_pos width)
  apply Nat.lt_of_mul_lt_mul_right (a := width + 1)
  calc weight rank width goals * (width + 1)
      ≤ goals.length * (width + 1) ^ most := weight_mul_le lower
    _ ≤ width * (width + 1) ^ most := Nat.mul_le_mul_right _ few
    _ < (width + 1) ^ most * (width + 1) := by
        rw [Nat.mul_comm, Nat.mul_succ]
        omega

variable {database : Database}

/-- The goals of a copy weigh less than the goal that they replace. -/
theorem Database.Ranked.weight_copiedGoals_lt (ranked : database.Ranked rank width)
    (built : database.Built) {goal : Predicate} {rule : Rule}
    (found : rule ∈ database.rulesOf goal.signature) (number : Nat) (rest : List Predicate) :
    weight rank width (rule.copiedGoals number ++ rest) < weight rank width (goal :: rest) := by
  rw [built.indexed.rulesOf_eq_filter, List.mem_filter, decide_eq_true_eq] at found
  obtain ⟨stored, same⟩ := found
  have member := Array.mem_toList_iff.mp stored
  have lighter : weight rank width (rule.copiedGoals number) < (width + 1) ^ rank goal.signature := by
    apply weight_lt
    · rw [Rule.copiedGoals, List.length_map]
      exact ranked.narrow rule member
    · intro copied inside
      obtain ⟨origin, inBody, rfl⟩ := List.mem_map.mp inside
      rw [Predicate.signature_rename, ← same]
      exact ranked.lower rule member origin inBody
  rw [weight_append, weight_cons]
  omega

variable {limits : Limits} {expansions : Nat}

theorem listGoals_exhausted {expand : List Predicate → Env → Nat → Listing} {most : Nat}
    (ranked : database.Ranked rank width) (built : database.Built) (unlimited : limits.depth = none)
    (later : ∀ goals, weight rank width goals < most →
      ∀ env copies, (expand goals env copies).ending = .exhausted)
    (goals : List Predicate) (within : weight rank width goals ≤ most) (env : Env) (copies : Nat) :
    (listGoals database limits expansions expand goals env copies).ending = .exhausted := by
  induction goals generalizing env copies with
  | nil => rfl
  | cons goal rest ih =>
    have going : limits.reached expansions = none :=
      Limits.reached_eq_none.mpr fun limit limited => by simp [unlimited] at limited
    have withinRest : weight rank width rest ≤ most := by
      rw [weight_cons] at within
      omega
    apply Listing.ending_andThen (· = .exhausted)
    · apply listEach_ending (· = .exhausted) rfl
      intro fact _ copies
      unfold listFact
      split
      · rfl
      · exact ih withinRest _ copies
    · apply listEach_ending (· = .exhausted) rfl
      intro rule found copies
      simp only [listRule, going]
      split
      · rfl
      · have lighter := ranked.weight_copiedGoals_lt built found (copies + 1) rest
        exact later _ (Nat.lt_of_lt_of_le lighter within) _ _

/-- A branch makes no more expansions than its goals weigh. -/
theorem listing_exhausted (ranked : database.Ranked rank width) (built : database.Built)
    (unlimited : limits.depth = none) (fuel : Nat) (goals : List Predicate)
    (enough : weight rank width goals ≤ fuel) (env : Env) (copies : Nat) :
    (listing database limits fuel expansions goals env copies).ending = .exhausted := by
  induction fuel generalizing expansions goals env copies with
  | zero =>
    apply listGoals_exhausted ranked built unlimited _ goals enough
    exact fun _ lighter => absurd lighter (Nat.not_lt_zero _)
  | succ fuel ih =>
    apply listGoals_exhausted ranked built unlimited _ goals enough
    exact fun goals lighter => ih goals (Nat.le_of_lt_succ lighter)

end

/-! ## Ranks of any kind -/

section

variable {α : Type} [Preorder α]

open Classical in
/-- How many of the signatures in bodies are ranked below a signature. -/
noncomputable def Database.level (database : Database) (rank : Signature → α)
    (signature : Signature) : Nat :=
  let inBodies := (database.rules.toList.flatMap Rule.goals).map Predicate.signature
  (inBodies.toFinset.filter fun other => rank other < rank signature).card

/-- Whatever the signatures are ranked by, only finitely many ranks matter. -/
theorem Database.exists_ranked {database : Database} {rank : Signature → α}
    (lower : ∀ rule ∈ database.rules, ∀ goal ∈ rule.goals,
      rank goal.signature < rank rule.head.signature) :
    ∃ width, database.Ranked (database.level rank) width := by
  refine ⟨(database.rules.toList.map fun rule => rule.goals.length).sum, ?lower, ?narrow⟩
  case lower =>
    classical
    intro rule stored goal inBody
    have below := lower rule stored goal inBody
    have known : goal.signature ∈
        (database.rules.toList.flatMap Rule.goals).map Predicate.signature :=
      List.mem_map_of_mem (List.mem_flatMap.mpr ⟨rule, Array.mem_toList_iff.mpr stored, inBody⟩)
    apply Finset.card_lt_card
    refine (Finset.ssubset_iff_of_subset ?_).mpr ⟨goal.signature, ?_, ?_⟩
    · intro other member
      rw [Finset.mem_filter] at member ⊢
      exact ⟨member.1, member.2.trans below⟩
    · exact Finset.mem_filter.mpr ⟨List.mem_toFinset.mpr known, below⟩
    · exact fun member => lt_irrefl _ (Finset.mem_filter.mp member).2
  case narrow =>
    intro rule stored
    apply List.le_sum_of_mem
    exact List.mem_map_of_mem (f := fun rule => rule.goals.length) (Array.mem_toList_iff.mpr stored)

end

/-- If the signatures can be ranked so that every goal of a rule is below the rule's head, then a search
without a limit comes to its full end: some fuel is enough for it to have an answer, which is the same
with more fuel, and the recursion without a bound ends, whatever the visitor. -/
theorem all_of_ranked {α : Type} [Preorder α] (database : Database) (rank : Signature → α)
    (copies : Nat) (goals : List Predicate) (env : Env) (built : database.Built)
    (reachable : env.Reachable)
    (lower : ∀ rule ∈ database.rules, ∀ goal ∈ rule.goals,
      rank goal.signature < rank rule.head.signature) :
    ∃ enough envs number, ∀ fuel, enough ≤ fuel →
      Search.all ⟨database, ⟨none, fuel⟩, copies⟩ goals env =
          (.ok envs, ⟨database, ⟨none, fuel⟩, number⟩) ∧
        ∀ {σ : Type} (visitor : Visitor σ) (seen : σ),
          let run := search database ⟨none, fuel⟩ visitor fuel 0 goals ⟨env, copies, seen⟩
          (run.1 = .exhausted ∨ run.1 = .stopped) ∧
            Ends (search? database ⟨none, fuel⟩ visitor · 0 goals ⟨env, copies, seen⟩) run := by
  obtain ⟨width, ranked⟩ := Database.exists_ranked lower
  have full : ∀ fuel, weight (database.level rank) width goals ≤ fuel →
      (listing database ⟨none, fuel⟩ fuel 0 goals env copies).ending = .exhausted :=
    fun fuel enough => listing_exhausted ranked built rfl fuel goals enough env copies
  let first := weight (database.level rank) width goals
  let found := listing database ⟨none, first⟩ first 0 goals env copies
  have answered : Search.all ⟨database, ⟨none, first⟩, copies⟩ goals env =
      (.ok found.envs, ⟨database, ⟨none, first⟩, found.copies⟩) :=
    Search.all_eq_ok_iff.mpr ⟨full first (Nat.le_refl first), rfl, rfl⟩
  refine ⟨first, found.envs, found.copies, fun fuel enough => ⟨?answer, ?ends⟩⟩
  case answer =>
    have wider : Limits.most ⟨none, first⟩ ≤ Limits.most ⟨none, fuel⟩ := enough
    exact Search.all_of_wider wider answered
  case ends =>
    intro σ visitor seen run
    have ending : run.1 = .exhausted ∨ run.1 = .stopped := by
      rw [← full fuel enough]
      exact search_ending database ⟨none, fuel⟩ visitor fuel 0 goals env copies seen
    refine ⟨ending, ?_⟩
    apply (finishes_search database ⟨none, fuel⟩ visitor fuel 0 goals).ends _ reachable.acyclic
    rcases ending with exhausted | stopped
    · exact fun cut => nomatch exhausted.symm.trans cut
    · exact fun cut => nomatch stopped.symm.trans cut

namespace Streets

/-- A crossing is two streets, and a tour is one crossing or two. -/
def tours : Database :=
  let x := Term.var "X"
  let y := Term.var "Y"
  let z := Term.var "Z"
  let crossing (first last : Term) : Predicate := ⟨"crossing", [first, last]⟩
  let tour : Predicate := ⟨"tour", [x, z]⟩
  let corner : Rule := ⟨crossing x z, .conj (street x y).toTerm (street y z).toTerm,
    [street x y, street y z]⟩
  let short : Rule := ⟨tour, (crossing x z).toTerm, [crossing x z]⟩
  let long : Rule := ⟨tour, .conj (crossing x y).toTerm (crossing y z).toTerm,
    [crossing x y, crossing y z]⟩
  let facts := (Database.empty.addFact (street (.atom "a") (.atom "b"))).addFact
    (street (.atom "b") (.atom "a"))
  ((facts.addRule short).addRule corner).addRule long

theorem built_tours : tours.Built :=
  .rule (.rule (.rule (.fact (.fact .empty _) _) _) _) _

/-- Streets below crossings below tours. -/
def rank (signature : Signature) : Nat :=
  if signature.name = "tour" then 2 else if signature.name = "crossing" then 1 else 0

end Streets

theorem all_of_ranked_tours :
    let goals : List Predicate := [⟨"tour", [.atom "a", .var "W"]⟩]
    (∀ rule ∈ Streets.tours.rules, ∀ goal ∈ rule.goals,
        Streets.rank goal.signature < Streets.rank rule.head.signature) ∧
      ∃ enough envs number, ∀ fuel, enough ≤ fuel →
        Search.all ⟨Streets.tours, ⟨none, fuel⟩, 5⟩ goals Streets.named =
          (.ok envs, ⟨Streets.tours, ⟨none, fuel⟩, number⟩) := by
  intro goals
  have lower : ∀ rule ∈ Streets.tours.rules, ∀ goal ∈ rule.goals,
      Streets.rank goal.signature < Streets.rank rule.head.signature := by decide
  obtain ⟨enough, envs, number, each⟩ := all_of_ranked Streets.tours Streets.rank 5 goals
    Streets.named Streets.built_tours Streets.reachable_named lower
  exact ⟨lower, enough, envs, number, fun fuel more => (each fuel more).1⟩

end Backchain
