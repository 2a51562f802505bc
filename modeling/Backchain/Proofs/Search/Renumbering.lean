import Mathlib.Logic.Equiv.Basic
import Backchain.Proofs.Env.Renaming
import Backchain.Proofs.Search.Copying
import Backchain.Proofs.Search.Hygiene

/-!
Branches whose copies have other numbers.

Two branches use the same clauses in the same order, but the searches have made other numbers of copies
before. So what is in use on one branch is in use on the other as well, only the copies have other
numbers there, and a permutation of the numbers leads from one branch to the other. When both branches
copy a rule, the permutation has to take the number of the one copy to that of the other. Neither number
is in use yet, so a swap does this and changes nothing in use.
-/
set_option autoImplicit false

namespace Backchain

/-! ## Names of copies under other numbers -/

open Classical in
/-- Gives each copy another number. Names that are not those of copies stay. -/
noncomputable def renumbered (numbers : Equiv.Perm Nat) (name : String) : String :=
  if copy : ∃ number x, name = copyName number x then
    copyName (numbers copy.choose) copy.choose_spec.choose
  else name

section

variable {numbers : Equiv.Perm Nat} {name : String}

theorem renumbered_copyName (numbers : Equiv.Perm Nat) (number : Nat) (x : String) :
    renumbered numbers (copyName number x) = copyName (numbers number) x := by
  have copy : ∃ other y, copyName number x = copyName other y := ⟨number, x, rfl⟩
  obtain ⟨same, names⟩ := copyName_inj.mp copy.choose_spec.choose_spec
  rw [renumbered, dif_pos copy, copyName_inj]
  exact ⟨congrArg numbers same.symm, names.symm⟩

theorem renumbered_of_ne (other : ∀ number x, name ≠ copyName number x) :
    renumbered numbers name = name := by
  rw [renumbered, dif_neg]
  rintro ⟨number, x, same⟩
  exact other number x same

theorem renumbered_of_free (free : isReserved name = false) : renumbered numbers name = name := by
  apply renumbered_of_ne
  rintro number x rfl
  rw [isReserved_copyName] at free
  cases free

theorem copyName_or_ne (name : String) :
    (∃ number x, name = copyName number x) ∨ ∀ number x, name ≠ copyName number x := by
  by_cases copy : ∃ number x, name = copyName number x
  · exact .inl copy
  · exact .inr fun number x same => copy ⟨number, x, same⟩

theorem renumbered_symm (numbers : Equiv.Perm Nat) (name : String) :
    renumbered numbers.symm (renumbered numbers name) = name := by
  rcases copyName_or_ne name with ⟨number, x, rfl⟩ | other
  · rw [renumbered_copyName, renumbered_copyName, Equiv.symm_apply_apply]
  · rw [renumbered_of_ne other, renumbered_of_ne other]

theorem injective_renumbered (numbers : Equiv.Perm Nat) : Function.Injective (renumbered numbers) :=
  Function.LeftInverse.injective (renumbered_symm numbers)

theorem renumbered_refl : renumbered (Equiv.refl Nat) = id := by
  funext name
  rcases copyName_or_ne name with ⟨number, x, rfl⟩ | other
  · exact renumbered_copyName (Equiv.refl Nat) number x
  · exact renumbered_of_ne other

/-- Takes the next number on one side to the next number on the other. -/
def nextTo (numbers : Equiv.Perm Nat) (copies number : Nat) : Equiv.Perm Nat :=
  numbers.trans (Equiv.swap (numbers (copies + 1)) (number + 1))

theorem nextTo_next (numbers : Equiv.Perm Nat) (copies number : Nat) :
    nextTo numbers copies number (copies + 1) = number + 1 :=
  Equiv.swap_apply_left _ _

theorem renumbered_nextTo_of_below {copies number : Nat} (below : Below copies name)
    (belowOther : Below number (renumbered numbers name)) :
    renumbered (nextTo numbers copies number) name = renumbered numbers name := by
  rcases copyName_or_ne name with ⟨index, x, rfl⟩ | other
  · rw [renumbered_copyName] at belowOther
    have old : index ≠ copies + 1 := by
      rintro rfl
      exact below (copies + 1) x (Nat.lt_succ_self copies) rfl
    have oldOther : numbers index ≠ number + 1 := by
      intro next
      exact belowOther (numbers index) x (next ▸ Nat.lt_succ_self number) rfl
    have same : nextTo numbers copies number index = numbers index :=
      Equiv.swap_apply_of_ne_of_ne (numbers.injective.ne old) oldOther
    rw [renumbered_copyName, renumbered_copyName, same]
  · rw [renumbered_of_ne other, renumbered_of_ne other]

end

/-! ## What has other numbers -/

/-- Two environments have the same bindings in the same order, up to the numbers of copies. -/
def SameUpToNumbers (answer other : Env) : Prop :=
  ∃ numbers : Equiv.Perm Nat, answer.Renames (renumbered numbers) other

theorem Predicate.IsUnmarked.rename_renumbered {p : Predicate} (unmarked : p.IsUnmarked)
    (numbers : Equiv.Perm Nat) : p.rename (renumbered numbers) = p := by
  have same : p.rename (renumbered numbers) = p.bind .var := Predicate.bind_congr fun x occurs =>
    congrArg Term.var (renumbered_of_free (Predicate.isUnmarked_iff.mp unmarked x occurs))
  rw [same, Predicate.bind_var]

/-- The names of one copy lead to those of the other. -/
theorem Predicate.rename_copyName_renumbered (p : Predicate) (numbers : Equiv.Perm Nat)
    (copies number : Nat) :
    (p.rename (copyName (copies + 1))).rename (renumbered (nextTo numbers copies number)) =
      p.rename (copyName (number + 1)) := by
  rw [Predicate.rename_rename]
  apply Predicate.rename_congr
  intro x _
  rw [Function.comp_apply, renumbered_copyName, nextTo_next]

/-- What neither side has claimed yet may be taken to the next number without a change in use. -/
theorem Term.IsBelow.renumbered_nextTo {numbers : Equiv.Perm Nat} {copies number : Nat} {term : Term}
    (below : term.IsBelow copies) (belowOther : (term.rename (renumbered numbers)).IsBelow number) :
    ∀ x ∈ term.occurrences, renumbered numbers x = renumbered (nextTo numbers copies number) x := by
  intro x occurs
  have occursOther : renumbered numbers x ∈ (term.rename (renumbered numbers)).occurrences := by
    rw [Term.occurrences_rename]
    exact List.mem_map_of_mem occurs
  exact (renumbered_nextTo_of_below (below x occurs) (belowOther _ occursOther)).symm

theorem Predicate.IsBelow.rename_nextTo {numbers : Equiv.Perm Nat} {copies number : Nat}
    {p : Predicate} (below : p.IsBelow copies)
    (belowOther : (p.rename (renumbered numbers)).IsBelow number) :
    p.rename (renumbered (nextTo numbers copies number)) = p.rename (renumbered numbers) := by
  symm
  apply Predicate.rename_congr
  intro x occurs
  obtain ⟨arg, member, inside⟩ := List.mem_flatMap.mp occurs
  have argOther := belowOther _ (List.mem_map_of_mem member)
  exact (below arg member).renumbered_nextTo argOther x inside

/-! ## Two branches side by side -/

/-- A branch of a search and a branch of another: the same is in use on both, up to the numbers of
copies, and neither uses a copy that is still to be made. -/
structure Alongside (database more : Database) (copies number : Nat) (numbers : Equiv.Perm Nat)
    (goals : List Predicate) (env other : Env) : Prop where
  renames : env.Renames (renumbered numbers) other
  acyclic : env.Acyclic
  acyclicOther : other.Acyclic
  unclaimed : Unclaimed database env goals copies
  unclaimedOther : Unclaimed more other (goals.map (Predicate.rename (renumbered numbers))) number

namespace Alongside

variable {database more : Database} {copies number : Nat} {numbers : Equiv.Perm Nat}
  {goal : Predicate} {goals rest : List Predicate} {env other : Env}

/-- At the start nothing in use has the name of a copy. -/
theorem start (acyclic : env.Acyclic) (facts : ∀ fact ∈ database.facts, fact.IsUnmarked)
    (factsOther : ∀ fact ∈ more.facts, fact.IsUnmarked) (bindings : env.Every Term.IsUnmarked)
    (goalsUnmarked : ∀ goal ∈ goals, goal.IsUnmarked) (copies number : Nat) :
    Alongside database more copies number (Equiv.refl Nat) goals env env where
  renames := by
    rw [renumbered_refl]
    exact .refl env
  acyclic := acyclic
  acyclicOther := acyclic
  unclaimed := .of_unmarked facts bindings goalsUnmarked copies
  unclaimedOther := by
    rw [renumbered_refl, Predicate.rename_id, List.map_id]
    exact .of_unmarked factsOther bindings goalsUnmarked number

theorem mono {later laterOther : Nat}
    (alongside : Alongside database more copies number numbers goals env other)
    (greater : copies ≤ later) (greaterOther : number ≤ laterOther) :
    Alongside database more later laterOther numbers goals env other where
  renames := alongside.renames
  acyclic := alongside.acyclic
  acyclicOther := alongside.acyclicOther
  unclaimed := alongside.unclaimed.mono greater
  unclaimedOther := alongside.unclaimedOther.mono greaterOther

/-- A fact has the same variables on both branches. -/
theorem unifiedFact {fact : Predicate} (unmarked : fact.IsUnmarked)
    (alongside : Alongside database more copies number numbers (goal :: rest) env other) :
    Option.Rel (Alongside database more copies number numbers rest)
      (env.unifiedPredicates? goal fact)
      (other.unifiedPredicates? (goal.rename (renumbered numbers)) fact) := by
  have unified := alongside.renames.unifiedPredicates (injective_renumbered numbers) goal fact
  rw [unmarked.rename_renumbered] at unified
  generalize met : env.unifiedPredicates? goal fact = result at unified
  generalize metOther : other.unifiedPredicates? _ fact = resultOther at unified
  cases unified with
  | none => exact .none
  | some renames =>
    exact .some {
      renames
      acyclic := Env.acyclic_of_unifiedPredicates alongside.acyclic met
      acyclicOther := Env.acyclic_of_unifiedPredicates alongside.acyclicOther metOther
      unclaimed := alongside.unclaimed.unified alongside.acyclic (unmarked.isBelow copies) met
      unclaimedOther := alongside.unclaimedOther.unified alongside.acyclicOther
        (unmarked.isBelow number) metOther }

theorem renames_nextTo
    (alongside : Alongside database more copies number numbers goals env other) :
    env.Renames (renumbered (nextTo numbers copies number)) other := by
  apply alongside.renames.congr
  intro x term bound
  obtain ⟨name, inside⟩ := alongside.unclaimed.env x term bound
  have boundOther := alongside.renames.find? (injective_renumbered numbers) x
  rw [bound, Option.map_some] at boundOther
  obtain ⟨nameOther, insideOther⟩ := alongside.unclaimedOther.env _ _ boundOther
  exact ⟨name.renumbered_nextTo nameOther, inside.renumbered_nextTo insideOther⟩

theorem rename_nextTo (alongside : Alongside database more copies number numbers goals env other) :
    goals.map (Predicate.rename (renumbered (nextTo numbers copies number))) =
      goals.map (Predicate.rename (renumbered numbers)) := by
  apply List.map_congr_left
  intro goal member
  have belowOther := alongside.unclaimedOther.goals _ (List.mem_map_of_mem member)
  exact (alongside.unclaimed.goals goal member).rename_nextTo belowOther

theorem rename_opened (rule : Rule)
    (alongside : Alongside database more copies number numbers (goal :: rest) env other) :
    (rule.copiedGoals (copies + 1) ++ rest).map
        (Predicate.rename (renumbered (nextTo numbers copies number))) =
      rule.copiedGoals (number + 1) ++ rest.map (Predicate.rename (renumbered numbers)) := by
  have unchanged := (List.cons.inj alongside.rename_nextTo).2
  rw [List.map_append, unchanged, Rule.copiedGoals, Rule.copiedGoals, List.map_map]
  congr 1
  apply List.map_congr_left
  exact fun goal _ => goal.rename_copyName_renumbered numbers copies number

/-- Both branches copy a rule. -/
theorem unifiedHead (rule : Rule)
    (alongside : Alongside database more copies number numbers (goal :: rest) env other) :
    Option.Rel
      (Alongside database more (copies + 1) (number + 1) (nextTo numbers copies number)
        (rule.copiedGoals (copies + 1) ++ rest))
      (env.unifiedPredicates? goal (rule.copiedHead (copies + 1)))
      (other.unifiedPredicates? (goal.rename (renumbered numbers))
        (rule.copiedHead (number + 1))) := by
  -- Under the changed numbers the branches still use the same, and the heads of the copies agree.
  have onGoal := (List.cons.inj alongside.rename_nextTo).1
  have unified := alongside.renames_nextTo.unifiedPredicates
    (injective_renumbered (nextTo numbers copies number)) goal (rule.copiedHead (copies + 1))
  have onHead : (rule.copiedHead (copies + 1)).rename (renumbered (nextTo numbers copies number)) =
      rule.copiedHead (number + 1) := rule.head.rename_copyName_renumbered numbers copies number
  rw [onGoal, onHead] at unified
  generalize met : env.unifiedPredicates? goal (rule.copiedHead (copies + 1)) = result at unified
  generalize metOther : other.unifiedPredicates? _ (rule.copiedHead (number + 1)) = resultOther
    at unified
  cases unified with
  | none => exact .none
  | some renames =>
    exact .some {
      renames
      acyclic := Env.acyclic_of_unifiedPredicates alongside.acyclic met
      acyclicOther := Env.acyclic_of_unifiedPredicates alongside.acyclicOther metOther
      unclaimed := alongside.unclaimed.opened alongside.acyclic met
      unclaimedOther := by
        rw [alongside.rename_opened rule]
        exact alongside.unclaimedOther.opened alongside.acyclicOther metOther }

/-! ## The same attempt on both branches -/

section

variable {related : Listing → Listing → Prop}
  (nothing : ∀ copies number, related (.nothing copies) (.nothing number))
include nothing

/-- What is listed for a fact is related if this holds wherever both branches go on. -/
theorem relates_listFact {goOn goOnOther : Env → Nat → Listing} {fact : Predicate}
    (alongside : Alongside database more copies number numbers (goal :: rest) env other)
    (unmarked : fact.IsUnmarked)
    (later : ∀ env other, Alongside database more copies number numbers rest env other →
      related (goOn env copies) (goOnOther other number)) :
    related (listFact goOn env goal fact copies)
      (listFact goOnOther other (goal.rename (renumbered numbers)) fact number) := by
  have unified := alongside.unifiedFact unmarked
  unfold listFact
  generalize env.unifiedPredicates? goal fact = result at unified
  generalize other.unifiedPredicates? _ fact = resultOther at unified
  cases unified with
  | none => exact nothing copies number
  | some extended => exact later _ _ extended

/-- What is listed for a rule is related if this holds wherever both branches are cut off and wherever
both go on with the goals of the copies. -/
theorem relates_listRule {limits : Limits} {expansions : Nat}
    {goOn goOnOther : List Predicate → Env → Nat → Listing}
    (alongside : Alongside database more copies number numbers (goal :: rest) env other)
    (rule : Rule)
    (cut : ∀ limit, related ⟨[], .tooDeep limit, copies + 1⟩ ⟨[], .tooDeep limit, number + 1⟩)
    (later : ∀ env other,
      Alongside database more (copies + 1) (number + 1) (nextTo numbers copies number)
        (rule.copiedGoals (copies + 1) ++ rest) env other →
      related (goOn (rule.copiedGoals (copies + 1)) env (copies + 1))
        (goOnOther (rule.copiedGoals (number + 1)) other (number + 1))) :
    related (listRule limits expansions goOn env goal rule copies)
      (listRule limits expansions goOnOther other (goal.rename (renumbered numbers)) rule
        number) := by
  have unified := alongside.unifiedHead rule
  simp only [listRule]
  generalize env.unifiedPredicates? goal (rule.copiedHead (copies + 1)) = result at unified
  generalize other.unifiedPredicates? _ (rule.copiedHead (number + 1)) = resultOther at unified
  cases unified with
  | none => exact nothing (copies + 1) (number + 1)
  | some opened =>
    cases limits.reached expansions with
    | some limit => exact cut limit
    | none => exact later _ _ opened

end

end Alongside

end Backchain
