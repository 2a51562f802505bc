import Mathlib.Data.List.Forall2
import Mathlib.Data.List.NodupEquivFin
import Backchain.Proofs.Database
import Backchain.Proofs.Search.DepthLimit
import Backchain.Proofs.Search.Renumbering

/-!
More clauses, more answers.

A database with more facts and rules between the old ones is searched in the same order, with other
branches in between. Each branch of the search in the old database has its counterpart in the other
search, on which only the numbers of the copies differ. So what is found in the old database is found
again, in the same order, and where the larger search comes to its full end the smaller one does too:
it has no branch that the larger one lacks.
-/
set_option autoImplicit false

namespace Backchain

/-! ## The number of copies does not go back -/

def Grows (list : Nat → Listing) : Prop :=
  ∀ copies, copies ≤ (list copies).copies

theorem Listing.le_copies_andThen {first : Listing} {next : Nat → Listing} {copies : Nat}
    (before : copies ≤ first.copies) (later : Grows next) :
    copies ≤ (first.andThen next).copies := by
  unfold andThen
  split
  · exact before.trans (later first.copies)
  · exact before

theorem grows_listEach {α : Type} {attempt : α → Nat → Listing}
    (each : ∀ candidate, Grows (attempt candidate)) (candidates : List α) :
    Grows (listEach attempt candidates) := by
  induction candidates with
  | nil => exact Nat.le_refl
  | cons candidate candidates ih =>
    exact fun copies => Listing.le_copies_andThen (each candidate copies) ih

section

variable {database more : Database} {limits : Limits} {expansions : Nat}

theorem grows_listFact {goOn : Env → Nat → Listing} (later : ∀ env, Grows (goOn env)) (env : Env)
    (goal fact : Predicate) : Grows (listFact goOn env goal fact) := by
  intro copies
  unfold listFact
  split
  · exact Nat.le_refl copies
  · exact later _ copies

theorem grows_listRule {goOn : List Predicate → Env → Nat → Listing}
    (later : ∀ goals env, Grows (goOn goals env)) (env : Env) (goal : Predicate) (rule : Rule) :
    Grows (listRule limits expansions goOn env goal rule) := by
  intro copies
  simp only [listRule]
  split
  · exact Nat.le_succ copies
  · split
    · exact Nat.le_succ copies
    · exact (Nat.le_succ copies).trans (later _ _ _)

theorem grows_listGoals {expand : List Predicate → Env → Nat → Listing}
    (later : ∀ goals env, Grows (expand goals env)) (goals : List Predicate) (env : Env) :
    Grows (listGoals database limits expansions expand goals env) := by
  induction goals generalizing env with
  | nil => exact Nat.le_refl
  | cons goal rest ih =>
    intro copies
    apply Listing.le_copies_andThen
    · exact grows_listEach (grows_listFact ih env goal) _ copies
    · exact grows_listEach (grows_listRule (fun goals => later (goals ++ rest)) env goal) _

theorem grows_listing (database : Database) (limits : Limits) (fuel expansions : Nat)
    (goals : List Predicate) (env : Env) :
    Grows (listing database limits fuel expansions goals env) := by
  induction fuel generalizing expansions goals env with
  | zero => exact grows_listGoals (fun _ _ copies => Nat.le_refl copies) goals env
  | succ fuel ih => exact grows_listGoals (ih (expansions + 1)) goals env

end

/-! ## What is found again -/

theorem sublistForall₂_append {α β : Type} {related : α → β → Prop} {first second : List α}
    {others more : List β} (before : List.SublistForall₂ related first others)
    (after : List.SublistForall₂ related second more) :
    List.SublistForall₂ related (first ++ second) (others ++ more) := by
  obtain ⟨here, pairs, kept⟩ := List.sublistForall₂_iff.mp before
  obtain ⟨there, pairsLater, keptLater⟩ := List.sublistForall₂_iff.mp after
  exact List.sublistForall₂_iff.mpr
    ⟨here ++ there, List.rel_append pairs pairsLater, kept.append keptLater⟩

/-- If the other listing comes to its full end then so does this one, and what it has found is found
again in the other in the same order. -/
structure Embeds (listing other : Listing) : Prop where
  ending : other.ending = .exhausted → listing.ending = .exhausted
  envs : other.ending = .exhausted → List.SublistForall₂ SameUpToNumbers listing.envs other.envs

namespace Embeds

variable {list first firstOther : Listing} {next nextOther : Nat → Listing}

theorem nothing (copies number : Nat) : Embeds (.nothing copies) (.nothing number) :=
  ⟨fun _ => rfl, fun _ => .nil⟩

/-- Nothing is said about a listing that was cut off. -/
theorem of_halted (halted : firstOther.ending ≠ .exhausted) : Embeds list firstOther :=
  ⟨fun full => absurd full halted, fun full => absurd full halted⟩

theorem andThen (before : Embeds first firstOther)
    (later : Embeds (next first.copies) (nextOther firstOther.copies)) :
    Embeds (first.andThen next) (firstOther.andThen nextOther) where
  ending ended := by
    obtain ⟨fullOther, endedOther⟩ := Listing.ending_andThen_eq_exhausted.mp ended
    exact Listing.ending_andThen_eq_exhausted.mpr ⟨before.ending fullOther, later.ending endedOther⟩
  envs ended := by
    obtain ⟨fullOther, endedOther⟩ := Listing.ending_andThen_eq_exhausted.mp ended
    rw [Listing.envs_andThen (before.ending fullOther), Listing.envs_andThen fullOther]
    exact sublistForall₂_append (before.envs fullOther) (later.envs endedOther)

/-- What only the other search tries may find something too. -/
theorem after (later : Embeds list (nextOther firstOther.copies)) :
    Embeds list (firstOther.andThen nextOther) where
  ending ended := later.ending (Listing.ending_andThen_eq_exhausted.mp ended).2
  envs ended := by
    obtain ⟨fullOther, endedOther⟩ := Listing.ending_andThen_eq_exhausted.mp ended
    rw [Listing.envs_andThen fullOther]
    exact sublistForall₂_append .nil (later.envs endedOther)

end Embeds

theorem embeds_listEach {α : Type} {attempt attemptOther : α → Nat → Listing}
    {candidates others : List α} {copies number : Nat} (kept : candidates.Sublist others)
    (grows : ∀ candidate, Grows (attempt candidate))
    (growsOther : ∀ candidate, Grows (attemptOther candidate))
    (each : ∀ candidate ∈ candidates, ∀ later laterOther, copies ≤ later → number ≤ laterOther →
      Embeds (attempt candidate later) (attemptOther candidate laterOther)) :
    Embeds (listEach attempt candidates copies) (listEach attemptOther others number) := by
  -- A candidate of the other side only makes its number of copies grow.
  induction kept generalizing copies number with
  | slnil => exact .nothing copies number
  | cons extra _ ih =>
    apply Embeds.after
    apply ih
    intro candidate member later laterOther above aboveOther
    exact each candidate member later laterOther above ((growsOther extra number).trans aboveOther)
  | cons_cons first _ ih =>
    apply Embeds.andThen
    · exact each first List.mem_cons_self copies number (Nat.le_refl _) (Nat.le_refl _)
    · apply ih
      intro candidate member later laterOther above aboveOther
      exact each candidate (List.mem_cons_of_mem _ member) later laterOther
        ((grows first copies).trans above) ((growsOther first number).trans aboveOther)

/-! ## The two searches -/

section

variable {database more : Database} {limits : Limits} {expansions copies number : Nat}
  {numbers : Equiv.Perm Nat} {goal : Predicate} {goals rest : List Predicate} {env other : Env}

/-- A database whose clauses are among those of another, in the same order. -/
structure Included (database more : Database) : Prop where
  facts : database.facts.toList.Sublist more.facts.toList
  rules : database.rules.toList.Sublist more.rules.toList
  indexed : database.Indexed
  indexedOther : more.Indexed
  unmarked : ∀ fact ∈ more.facts, fact.IsUnmarked

namespace Included

variable (included : Included database more) (signature : Signature)
include included

theorem factsOf : (database.factsOf signature).Sublist (more.factsOf signature) := by
  rw [included.indexed.factsOf_eq_filter, included.indexedOther.factsOf_eq_filter]
  exact included.facts.filter _

theorem rulesOf : (database.rulesOf signature).Sublist (more.rulesOf signature) := by
  rw [included.indexed.rulesOf_eq_filter, included.indexedOther.rulesOf_eq_filter]
  exact included.rules.filter _

theorem isUnmarked {fact : Predicate} (member : fact ∈ database.factsOf signature) :
    fact.IsUnmarked := by
  obtain ⟨place, stored⟩ := exists_place_of_mem_factsOf ((included.factsOf signature).subset member)
  exact included.unmarked fact (Array.mem_of_getElem? stored)

end Included

theorem embeds_listGoals {expand expandOther : List Predicate → Env → Nat → Listing}
    (included : Included database more) (grows : ∀ goals env, Grows (expand goals env))
    (growsOther : ∀ goals env, Grows (expandOther goals env))
    (going : ∀ goals env other copies number numbers,
      Alongside database more copies number numbers goals env other →
        Embeds (expand goals env copies)
          (expandOther (goals.map (Predicate.rename (renumbered numbers))) other number))
    (goals : List Predicate) (env other : Env) (copies number : Nat)
    (alongside : Alongside database more copies number numbers goals env other) :
    Embeds (listGoals database limits expansions expand goals env copies)
      (listGoals more limits expansions expandOther
        (goals.map (Predicate.rename (renumbered numbers))) other number) := by
  induction goals generalizing env other copies number with
  | nil => exact ⟨fun _ => rfl, fun _ => .cons ⟨numbers, alongside.renames⟩ .nil⟩
  | cons goal rest ih =>
    rw [List.map_cons, listGoals, listGoals, Predicate.signature_rename]
    have facts : ∀ fact, Grows
        (listFact (listGoals database limits expansions expand rest) env goal fact) :=
      grows_listFact (grows_listGoals grows rest) env goal
    have factsOther : ∀ fact, Grows (listFact (listGoals more limits expansions expandOther
        (rest.map (Predicate.rename (renumbered numbers)))) other
          (goal.rename (renumbered numbers)) fact) :=
      grows_listFact (grows_listGoals growsOther _) other _
    apply Embeds.andThen
    · apply embeds_listEach (included.factsOf goal.signature) facts factsOther
      intro fact member later laterOther above aboveOther
      exact (alongside.mono above aboveOther).relates_listFact Embeds.nothing
        (included.isUnmarked _ member) fun env other => ih env other _ _
    · apply embeds_listEach (included.rulesOf goal.signature)
      · exact grows_listRule (fun goals => grows (goals ++ rest)) env goal
      · exact grows_listRule (fun goals => growsOther (goals ++ _)) other _
      intro rule _ later laterOther above aboveOther
      have here := alongside.mono ((grows_listEach facts _ copies).trans above)
        ((grows_listEach factsOther _ number).trans aboveOther)
      apply here.relates_listRule Embeds.nothing rule
      · exact fun _ => .of_halted (by simp)
      · intro env other opened
        rw [← here.rename_opened rule]
        exact going _ _ _ _ _ _ opened

theorem embeds_listing (included : Included database more) (limits : Limits)
    (fuel expansions : Nat) (goals : List Predicate) (env other : Env) (copies number : Nat)
    (numbers : Equiv.Perm Nat)
    (alongside : Alongside database more copies number numbers goals env other) :
    Embeds (listing database limits fuel expansions goals env copies)
      (listing more limits fuel expansions
        (goals.map (Predicate.rename (renumbered numbers))) other number) := by
  induction fuel generalizing expansions goals env other copies number numbers with
  | zero =>
    apply embeds_listGoals included (fun _ _ copies => Nat.le_refl copies)
      (fun _ _ copies => Nat.le_refl copies) _ goals env other copies number alongside
    exact fun _ _ _ _ _ _ _ => .of_halted (by simp)
  | succ fuel ih =>
    exact embeds_listGoals included (grows_listing database limits fuel (expansions + 1))
      (grows_listing more limits fuel (expansions + 1)) (ih (expansions + 1)) goals env other copies
      number alongside

end

/-- Each element is related to one of the other list, and these follow each other in the same order. -/
theorem exists_embedding {α β : Type} {related : α → β → Prop} {kept : List α} {found : List β}
    (again : List.SublistForall₂ related kept found) :
    ∃ place : Fin kept.length ↪o Fin found.length,
      ∀ index, related (kept.get index) (found.get (place index)) := by
  obtain ⟨middle, pairs, sublist⟩ := List.sublistForall₂_iff.mp again
  obtain ⟨place, same⟩ := List.sublist_iff_exists_fin_orderEmbedding_get_eq.mp sublist
  obtain ⟨lengths, each⟩ := List.forall₂_iff_get.mp pairs
  refine ⟨(Fin.castOrderIso lengths).toOrderEmbedding.trans place, ?_⟩
  intro index
  have here := each index index.isLt (lengths ▸ index.isLt)
  rw [RelEmbedding.trans_apply, ← same]
  exact here

/-- Storing more facts and rules between those of a database loses no answers: if a search in the
larger database comes to its full end, then so does a search in the smaller one under the same limits,
from whatever numbers of copies. Its environments are found again in the same order, with the same
bindings in the same order, up to the numbers of rule copies. -/
theorem all_of_more_clauses (database more : Database) (limits : Limits) (copies number : Nat)
    (goals : List Predicate) (env : Env) (built : database.Built) (builtMore : more.Built)
    (facts : database.facts.toList.Sublist more.facts.toList)
    (rules : database.rules.toList.Sublist more.rules.toList) (reachable : env.Reachable)
    (unmarkedFacts : ∀ fact ∈ more.facts, fact.IsUnmarked)
    (unmarkedEnv : env.Every Term.IsUnmarked) (unmarkedGoals : ∀ goal ∈ goals, goal.IsUnmarked)
    (found : List Env) (next : Search)
    (answered : Search.all ⟨more, limits, number⟩ goals env = (.ok found, next)) :
    ∃ kept, (Search.all ⟨database, limits, copies⟩ goals env).1 = .ok kept ∧
      ∃ place : Fin kept.length ↪o Fin found.length,
        ∀ index, SameUpToNumbers (kept.get index) (found.get (place index)) := by
  have included : Included database more :=
    ⟨facts, rules, built.indexed, builtMore.indexed, unmarkedFacts⟩
  have stored : ∀ fact ∈ database.facts, fact.IsUnmarked := by
    intro fact member
    exact unmarkedFacts fact (Array.mem_toList_iff.mp (facts.subset (Array.mem_toList_iff.mpr member)))
  have alongside := Alongside.start reachable.acyclic stored unmarkedFacts unmarkedEnv unmarkedGoals
    copies number
  have embeds := embeds_listing included limits limits.fuel 0 goals env env copies number _ alongside
  rw [renumbered_refl, Predicate.rename_id, List.map_id] at embeds
  obtain ⟨full, rfl, -⟩ := Search.all_eq_ok_iff.mp answered
  refine ⟨_, ?_, exists_embedding (embeds.envs full)⟩
  have answer := Search.all_eq ⟨database, limits, copies⟩ goals env
  rwa [Search.listing, embeds.ending full] at answer

namespace Streets

/-- The streets with one more street at the start, and with ways from a place to itself. -/
def suburbs : Database :=
  let x := Term.var "X"
  let y := Term.var "Y"
  let z := Term.var "Z"
  let direct : Rule := ⟨way x y, (street x y).toTerm, [street x y]⟩
  let stay : Rule := ⟨way x x, (street x y).toTerm, [street x y]⟩
  let further : Rule :=
    ⟨way x z, .conj (street x y).toTerm (way y z).toTerm, [street x y, way y z]⟩
  let facts := ((Database.empty.addFact (street (.atom "a") (.atom "d"))).addFact
    (street (.atom "a") (.atom "b"))).addFact (street (.atom "b") (.atom "c"))
  ((facts.addRule direct).addRule stay).addRule further

theorem built_suburbs : suburbs.Built :=
  .rule (.rule (.rule (.fact (.fact (.fact .empty _) _) _) _) _) _

end Streets

theorem all_of_more_clauses_suburbs :
    ∃ kept found,
      (Search.all ⟨Streets.database, .ofDepth 4, 0⟩ [Streets.wayFromA] Streets.named).1 = .ok kept ∧
      (Search.all ⟨Streets.suburbs, .ofDepth 4, 3⟩ [Streets.wayFromA] Streets.named).1 = .ok found ∧
      kept.length = 2 ∧ found.length = 6 ∧
      ∃ place : Fin kept.length ↪o Fin found.length,
        ∀ index, SameUpToNumbers (kept.get index) (found.get (place index)) := by
  have counted : (Search.all ⟨Streets.database, .ofDepth 4, 0⟩ [Streets.wayFromA]
      Streets.named).1.map List.length = .ok 2 := by rfl
  have countedMore : (Search.all ⟨Streets.suburbs, .ofDepth 4, 3⟩ [Streets.wayFromA]
      Streets.named).1.map List.length = .ok 6 := by rfl
  generalize answered : Search.all ⟨Streets.suburbs, .ofDepth 4, 3⟩ [Streets.wayFromA]
    Streets.named = run at countedMore
  obtain ⟨answer, next⟩ := run
  cases answer with
  | error halt => cases countedMore
  | ok found =>
    obtain ⟨kept, again, place⟩ := all_of_more_clauses Streets.database Streets.suburbs (.ofDepth 4)
      0 3 [Streets.wayFromA] Streets.named Streets.built_database Streets.built_suburbs (by decide)
      (by decide) Streets.reachable_named (by decide) (by decide) (by decide) found next answered
    rw [again] at counted
    exact ⟨kept, found, again, rfl, Except.ok.inj counted, Except.ok.inj countedMore, place⟩

end Backchain
