import Mathlib.Computability.StateTransition
import Backchain.Proofs.Search.Copying

/-!
The search without limits, as a machine.

An agenda lists what is still to be done, the next task first, each with the environment of its
branch and the number of rule expansions on it. A step does the first task: it puts the candidates
for the first goal in front, or it tries a fact or a copy of a rule. Nothing bounds the steps, and
a search that goes on forever is a machine that never runs out of tasks.

A listing that comes to its full end is a walk of the machine on branches that stay within the
bound of the listing. A listing that is cut off is such a walk too, up to the first branch that
does not.
-/
set_option autoImplicit false

namespace Backchain

open Relation (ReflTransGen)
open StateTransition (Reaches)

/-- A part of a search on a branch with some expansions. -/
inductive Task where
  /-- The goals are still to be solved. -/
  | solve (expansions : Nat) (goals : List Predicate) (env : Env)
  /-- The goal, before the rest, is still to be met by this fact. -/
  | tryFact (expansions : Nat) (goal : Predicate) (rest : List Predicate) (env : Env)
      (fact : Predicate)
  /-- The goal, before the rest, is still to be met by the head of a copy of this rule. -/
  | tryRule (expansions : Nat) (goal : Predicate) (rest : List Predicate) (env : Env) (rule : Rule)

def Task.expansions : Task → Nat
  | .solve expansions _ _ => expansions
  | .tryFact expansions _ _ _ _ => expansions
  | .tryRule expansions _ _ _ _ => expansions

structure Agenda where
  tasks : List Task
  copies : Nat
  found : List Env

namespace Agenda

def start (goals : List Predicate) (env : Env) (copies : Nat) : Agenda :=
  ⟨[.solve 0 goals env], copies, []⟩

/-- The rule expansions on the branch at hand. -/
def expansions (agenda : Agenda) : Nat :=
  agenda.tasks.head?.elim 0 Task.expansions

/-- Does the first task. -/
def next? (database : Database) : Agenda → Option Agenda
  | ⟨[], _, _⟩ => none
  | ⟨.solve _ [] env :: tasks, copies, found⟩ => some ⟨tasks, copies, found ++ [env]⟩
  | ⟨.solve expansions (goal :: rest) env :: tasks, copies, found⟩ =>
    let facts := (database.factsOf goal.signature).map (.tryFact expansions goal rest env)
    let rules := (database.rulesOf goal.signature).map (.tryRule expansions goal rest env)
    some ⟨facts ++ rules ++ tasks, copies, found⟩
  | ⟨.tryFact expansions goal rest env fact :: tasks, copies, found⟩ =>
    match env.unifiedPredicates? goal fact with
    | none => some ⟨tasks, copies, found⟩
    | some extended => some ⟨.solve expansions rest extended :: tasks, copies, found⟩
  | ⟨.tryRule expansions goal rest env rule :: tasks, copies, found⟩ =>
    let number := copies + 1
    match env.unifiedPredicates? goal (rule.copiedHead number) with
    | none => some ⟨tasks, number, found⟩
    | some extended =>
      let goals := rule.copiedGoals number ++ rest
      some ⟨.solve (expansions + 1) goals extended :: tasks, number, found⟩

/-- Steps on branches with at most this many expansions. -/
def Walks (database : Database) (depth : Nat) : Agenda → Agenda → Prop :=
  ReflTransGen fun agenda next => agenda.expansions ≤ depth ∧ next ∈ agenda.next? database

variable {database : Database} {depth : Nat} {first last other : Agenda}

theorem next?_of_done {agenda : Agenda} (done : agenda.tasks = []) :
    agenda.next? database = none := by
  obtain ⟨tasks, copies, found⟩ := agenda
  obtain rfl : tasks = [] := done
  rfl

theorem Walks.reaches (walks : first.Walks database depth last) :
    Reaches (next? database) first last :=
  ReflTransGen.mono (fun _ _ step => step.2) _ _ walks

theorem eq_of_reaches_done (done : first.tasks = [])
    (reaches : Reaches (next? database) first last) : last = first := by
  cases ReflTransGen.cases_head reaches with
  | inl same => exact same.symm
  | inr step =>
    obtain ⟨next, moved, -⟩ := step
    rw [next?_of_done done] at moved
    cases moved

/-- Whatever goes beyond the bound of a walk comes after the walk. -/
theorem Walks.reaches_of_deeper (walks : first.Walks database depth last)
    (reaches : Reaches (next? database) first other) (deeper : depth < other.expansions) :
    Reaches (next? database) last other := by
  induction walks using ReflTransGen.head_induction_on with
  | refl => exact reaches
  | head step _ ih =>
    cases ReflTransGen.cases_head reaches with
    | inl same =>
      rw [← same] at deeper
      exact absurd step.1 (Nat.not_le_of_lt deeper)
    | inr later =>
      obtain ⟨next, moved, rest⟩ := later
      obtain rfl := Option.mem_unique step.2 moved
      exact ih rest

/-- A walk to an agenda without tasks has been everywhere. -/
theorem Walks.not_deeper_of_done (walks : first.Walks database depth last) (done : last.tasks = [])
    (reaches : Reaches (next? database) first other) : ¬ depth < other.expansions := by
  intro deeper
  have same : other = last := eq_of_reaches_done done (walks.reaches_of_deeper reaches deeper)
  rw [same, expansions, done] at deeper
  exact Nat.not_lt_zero depth deeper

theorem found_prefix_of_next? {agenda next : Agenda} (moved : next ∈ agenda.next? database) :
    agenda.found <+: next.found := by
  rcases agenda with ⟨_ | ⟨task, tasks⟩, copies, found⟩
  · cases moved
  cases task with
  | solve expansions goals env =>
    cases goals with
    | nil =>
      cases moved
      exact List.prefix_append _ _
    | cons goal rest =>
      cases moved
      exact List.prefix_rfl
  | tryFact expansions goal rest env fact =>
    simp only [next?, Option.mem_def] at moved
    split at moved <;> cases moved <;> exact List.prefix_rfl
  | tryRule expansions goal rest env rule =>
    simp only [next?, Option.mem_def] at moved
    split at moved <;> cases moved <;> exact List.prefix_rfl

/-- Nothing that was found is given up. -/
theorem found_prefix_of_reaches (reaches : Reaches (next? database) first last) :
    first.found <+: last.found := by
  induction reaches with
  | refl => exact List.prefix_rfl
  | tail _ moved ih => exact ih.trans (found_prefix_of_next? moved)

/-- Up to any agenda, the machine goes only so far on any branch. -/
theorem exists_walks (reaches : Reaches (next? database) first last) :
    ∃ depth, first.Walks database depth last := by
  induction reaches using ReflTransGen.head_induction_on with
  | refl => exact ⟨0, .refl⟩
  | @head agenda next moved _ ih =>
    obtain ⟨depth, walks⟩ := ih
    refine ⟨max agenda.expansions depth, .head ⟨Nat.le_max_left _ _, moved⟩ ?_⟩
    exact ReflTransGen.mono
      (fun _ _ step => ⟨Nat.le_trans step.1 (Nat.le_max_right _ _), step.2⟩) _ _ walks

end Agenda

/-! ## What the machine does for a listing -/

/-- The machine does the tasks as the listing says: it finds the same and makes as many copies, or,
where the listing is cut off, it comes to a branch beyond the bound. -/
structure Performs (database : Database) (depth : Nat) (front : List Task) (copies : Nat)
    (listing : Listing) : Prop where
  finishes : ∀ tasks found, listing.ending = .exhausted →
    Agenda.Walks database depth ⟨front ++ tasks, copies, found⟩
      ⟨tasks, listing.copies, found ++ listing.envs⟩
  exceeds : ∀ tasks found, listing.ending ≠ .exhausted →
    ∃ agenda : Agenda, Agenda.Walks database depth ⟨front ++ tasks, copies, found⟩ agenda ∧
      agenda.found = found ++ listing.envs ∧ depth < agenda.expansions

section

variable {database : Database} {depth copies : Nat} {α : Type}

theorem Performs.nothing : Performs database depth [] copies (.nothing copies) where
  finishes tasks found _ := by
    rw [Listing.nothing, Listing.envs, List.map_nil, List.append_nil]
    exact .refl
  exceeds _ _ halted := absurd rfl halted

theorem Performs.andThen {front later : List Task} {first : Listing} {next : Nat → Listing}
    (before : Performs database depth front copies first)
    (after : ∀ copies, Performs database depth later copies (next copies)) :
    Performs database depth (front ++ later) copies (first.andThen next) := by
  by_cases full : first.ending = .exhausted
  · have joined : ∀ found : List Env, found ++ first.envs ++ (next first.copies).envs =
        found ++ (first.andThen next).envs := by
      intro found
      rw [Listing.andThen_of_exhausted full, List.append_assoc]
      simp only [Listing.envs, List.map_append]
    constructor
    · intro tasks found fullNext
      rw [← joined, List.append_assoc]
      rw [Listing.andThen_of_exhausted full] at fullNext ⊢
      have walk := before.finishes (later ++ tasks) found full
      exact walk.trans ((after first.copies).finishes tasks (found ++ first.envs) fullNext)
    · intro tasks found halted
      rw [← joined, List.append_assoc]
      rw [Listing.andThen_of_exhausted full] at halted
      have walk := before.finishes (later ++ tasks) found full
      obtain ⟨agenda, walkNext, same, deeper⟩ :=
        (after first.copies).exceeds tasks (found ++ first.envs) halted
      exact ⟨agenda, walk.trans walkNext, same, deeper⟩
  · rw [Listing.andThen_of_halted full]
    constructor
    · intro _ _ fullFirst
      exact absurd fullFirst full
    · intro tasks found _
      rw [List.append_assoc]
      exact before.exceeds (later ++ tasks) found full

/-- The machine replaces a task by others, which do what the listing says. -/
theorem Performs.step {task : Task} {front : List Task} {number : Nat} {listing : Listing}
    (within : task.expansions ≤ depth)
    (moves : ∀ tasks found, Agenda.next? database ⟨task :: tasks, copies, found⟩ =
      some ⟨front ++ tasks, number, found⟩)
    (performs : Performs database depth front number listing) :
    Performs database depth [task] copies listing where
  finishes tasks found full :=
    .head ⟨within, moves tasks found⟩ (performs.finishes tasks found full)
  exceeds tasks found halted := by
    obtain ⟨agenda, walk, same, deeper⟩ := performs.exceeds tasks found halted
    exact ⟨agenda, .head ⟨within, moves tasks found⟩ walk, same, deeper⟩

/-- The machine is beyond the bound at once where a listing is cut off. -/
theorem Performs.cut {task : Task} {listing : Listing} (deeper : depth < task.expansions)
    (none : listing.found = []) (halted : listing.ending ≠ .exhausted) :
    Performs database depth [task] copies listing where
  finishes _ _ full := absurd full halted
  exceeds tasks found _ := by
    refine ⟨⟨task :: tasks, copies, found⟩, .refl, ?_, deeper⟩
    rw [Listing.envs, none, List.map_nil, List.append_nil]

theorem performs_listEach {task : α → Task} {attempt : α → Nat → Listing}
    (each : ∀ candidate copies,
      Performs database depth [task candidate] copies (attempt candidate copies))
    (candidates : List α) (copies : Nat) :
    Performs database depth (candidates.map task) copies (listEach attempt candidates copies) := by
  induction candidates generalizing copies with
  | nil => exact .nothing
  | cons candidate candidates ih => exact (each candidate copies).andThen ih

variable {expansions : Nat}

theorem performs_listFact {goOn : Env → Nat → Listing} {rest : List Predicate}
    (within : expansions ≤ depth)
    (later : ∀ env copies,
      Performs database depth [.solve expansions rest env] copies (goOn env copies))
    (env : Env) (goal fact : Predicate) (copies : Nat) :
    Performs database depth [.tryFact expansions goal rest env fact] copies
      (listFact goOn env goal fact copies) := by
  unfold listFact
  cases unified : env.unifiedPredicates? goal fact with
  | none =>
    apply Performs.step within _ .nothing
    intro tasks found
    simp only [Agenda.next?, unified, List.nil_append]
  | some extended =>
    apply Performs.step within _ (later extended copies)
    intro tasks found
    simp only [Agenda.next?, unified, List.cons_append, List.nil_append]

theorem performs_listRule {limits : Limits} {expand : List Predicate → Env → Nat → Listing}
    (within : expansions ≤ depth) (deep : limits.reached expansions ≠ none → depth < expansions + 1)
    (later : limits.reached expansions = none → ∀ goals env copies,
      Performs database depth [.solve (expansions + 1) goals env] copies (expand goals env copies))
    (env : Env) (goal : Predicate) (rest : List Predicate) (rule : Rule) (copies : Nat) :
    Performs database depth [.tryRule expansions goal rest env rule] copies
      (listRule limits expansions (fun goals => expand (goals ++ rest)) env goal rule copies) := by
  cases unified : env.unifiedPredicates? goal (rule.copiedHead (copies + 1)) with
  | none =>
    simp only [listRule, unified]
    apply Performs.step within _ .nothing
    intro tasks found
    simp only [Agenda.next?, unified, List.nil_append]
  | some extended =>
    have moves : ∀ tasks found, Agenda.next? database
        ⟨.tryRule expansions goal rest env rule :: tasks, copies, found⟩ =
          some ⟨[.solve (expansions + 1) (rule.copiedGoals (copies + 1) ++ rest) extended] ++ tasks,
            copies + 1, found⟩ := by
      intro tasks found
      simp only [Agenda.next?, unified, List.cons_append, List.nil_append]
    cases reached : limits.reached expansions with
    | none =>
      simp only [listRule, unified, reached]
      exact .step within moves (later reached _ _ _)
    | some limit =>
      simp only [listRule, unified, reached]
      exact .step within moves (.cut (deep (by simp [reached])) rfl (by simp))

theorem performs_listGoals {limits : Limits} {expand : List Predicate → Env → Nat → Listing}
    (within : expansions ≤ depth) (deep : limits.reached expansions ≠ none → depth < expansions + 1)
    (later : limits.reached expansions = none → ∀ goals env copies,
      Performs database depth [.solve (expansions + 1) goals env] copies (expand goals env copies))
    (goals : List Predicate) (env : Env) (copies : Nat) :
    Performs database depth [.solve expansions goals env] copies
      (listGoals database limits expansions expand goals env copies) := by
  induction goals generalizing env copies with
  | nil =>
    constructor
    · intro tasks found _
      exact .single ⟨within, rfl⟩
    · intro _ _ halted
      exact absurd rfl halted
  | cons goal rest ih =>
    have facts := performs_listEach (performs_listFact within ih env goal)
      (database.factsOf goal.signature) copies
    have rules := performs_listEach (performs_listRule within deep later env goal rest)
      (database.rulesOf goal.signature)
    exact .step within (fun _ _ => rfl) (facts.andThen rules)

end

/-- On a branch with these expansions, the limit and the fuel allow for going on up to the depth. -/
def Limits.Bounds (limits : Limits) (fuel expansions depth : Nat) : Prop :=
  ∀ more, expansions + more < depth ↔ limits.reached (expansions + more) = none ∧ more < fuel

section

variable {limits : Limits} {fuel expansions depth : Nat}

theorem Limits.Bounds.le_of_not (bounds : limits.Bounds fuel expansions depth)
    (stuck : ¬ (limits.reached expansions = none ∧ 0 < fuel)) : depth ≤ expansions :=
  Nat.le_of_not_lt fun less => stuck ((bounds 0).mp less)

theorem Limits.Bounds.next (bounds : limits.Bounds (fuel + 1) expansions depth) :
    limits.Bounds fuel (expansions + 1) depth := by
  intro more
  rw [Nat.add_right_comm, Nat.add_assoc, bounds (more + 1), Nat.add_lt_add_iff_right]

/-- The listing is what the machine does on branches as far as the limits let them go. -/
theorem performs_listing (database : Database) (within : expansions ≤ depth)
    (bounds : limits.Bounds fuel expansions depth) (goals : List Predicate) (env : Env)
    (copies : Nat) : Performs database depth [.solve expansions goals env] copies
      (listing database limits fuel expansions goals env copies) := by
  induction fuel generalizing expansions goals env copies with
  | zero =>
    have stuck : depth < expansions + 1 := Nat.lt_succ_of_le (bounds.le_of_not (by simp))
    apply performs_listGoals within (fun _ => stuck)
    intro _ goals env copies
    exact .cut stuck rfl (by simp)
  | succ fuel ih =>
    apply performs_listGoals within
    · intro reached
      exact Nat.lt_succ_of_le (bounds.le_of_not fun going => reached going.1)
    · intro going
      have less : expansions < depth := (bounds 0).mpr ⟨going, Nat.succ_pos fuel⟩
      exact ih less bounds.next

end

/-- The most expansions on a branch that neither the limit nor the fuel cuts off. -/
def Limits.most (limits : Limits) : Nat :=
  limits.depth.elim limits.fuel (min limits.fuel)

theorem Limits.bounds_most (limits : Limits) : limits.Bounds limits.fuel 0 limits.most := by
  intro more
  rw [Nat.zero_add, reached_eq_none, most]
  cases limits.depth with
  | none => simp
  | some limit => simp [and_comm]

end Backchain
