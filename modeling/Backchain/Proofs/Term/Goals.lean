import Backchain.Term.Goals
import Backchain.Proofs.Term.Bind

/-!
Goals and the names in them.

A goal and the predicates it asks for have the same variables in the same order. Accepting names means
that no variable carries the mark of rule copies, and then no predicate of a goal has such a variable
either.
-/
set_option autoImplicit false

namespace Backchain

namespace Term

theorem occurrences_goals {term : Term} {goals : List Predicate} (flat : term.goals = .ok goals) :
    term.occurrences = goals.flatMap Predicate.occurrences := by
  induction term generalizing goals with
  | compound name args =>
    rw [Term.goals, Except.ok.injEq] at flat
    subst flat
    simp [Predicate.occurrences]
  | conj left right ihLeft ihRight =>
    rw [Term.goals] at flat
    cases onLeft : left.goals with
    | error found => simp [onLeft] at flat
    | ok first =>
      cases onRight : right.goals with
      | error found => simp [onLeft, onRight] at flat
      | ok second =>
        simp only [onLeft, onRight, Except.ok.injEq] at flat
        subst flat
        rw [occurrences, ihLeft onLeft, ihRight onRight, List.flatMap_append]
  | _ => cases flat

theorem isGround_goals {term : Term} {goals : List Predicate} (flat : term.goals = .ok goals)
    (ground : term.isGround = true) : ∀ goal ∈ goals, goal.IsGround := by
  rw [isGround_iff, occurrences_goals flat, List.flatMap_eq_nil_iff] at ground
  intro goal member
  exact Predicate.isGround_iff.mpr (ground goal member)

/-- No variable of a term has the mark of rule copies in its name. -/
def IsUnmarked (term : Term) : Prop :=
  ∀ x ∈ term.occurrences, isReserved x = false

instance (term : Term) : Decidable term.IsUnmarked :=
  inferInstanceAs (Decidable (∀ x ∈ term.occurrences, _))

end Term

namespace Predicate

def IsUnmarked (p : Predicate) : Prop :=
  ∀ arg ∈ p.args, arg.IsUnmarked

instance (p : Predicate) : Decidable p.IsUnmarked :=
  inferInstanceAs (Decidable (∀ arg ∈ p.args, _))

theorem isUnmarked_iff {p : Predicate} :
    p.IsUnmarked ↔ ∀ x ∈ p.occurrences, isReserved x = false := by
  constructor
  · intro unmarked x occurs
    obtain ⟨arg, member, inside⟩ := List.mem_flatMap.mp occurs
    exact unmarked arg member x inside
  · intro unmarked arg member x occurs
    exact unmarked x (occurrences_subset member occurs)

theorem IsGround.isUnmarked {p : Predicate} (ground : p.IsGround) : p.IsUnmarked := by
  rw [isUnmarked_iff, isGround_iff.mp ground]
  exact fun x occurs => absurd occurs List.not_mem_nil

end Predicate

theorem Term.IsUnmarked.goals {term : Term} {goals : List Predicate}
    (unmarked : term.IsUnmarked) (flat : term.goals = .ok goals) :
    ∀ goal ∈ goals, goal.IsUnmarked := by
  intro goal member
  rw [Predicate.isUnmarked_iff]
  intro x occurs
  apply unmarked
  rw [occurrences_goals flat]
  exact List.mem_flatMap.mpr ⟨goal, member, occurs⟩

theorem checkNames_eq_ok_iff {terms : List Term} :
    checkNames terms = .ok () ↔ ∀ term ∈ terms, term.IsUnmarked := by
  induction terms with
  | nil => simp [checkNames]
  | cons term terms ih =>
    rw [List.forall_mem_cons, checkNames]
    cases found : term.findVar? isReserved with
    | none =>
      rw [Term.findVar?_eq_find?, List.find?_eq_none] at found
      have unmarked : term.IsUnmarked := by simpa [Term.IsUnmarked] using found
      rw [ih]
      exact ⟨fun others => ⟨unmarked, others⟩, And.right⟩
    | some name =>
      rw [Term.findVar?_eq_find?] at found
      have reserved := List.find?_some found
      constructor
      · intro accepted
        cases accepted
      · intro unmarked
        rw [unmarked.1 name (List.mem_of_find?_eq_some found)] at reserved
        cases reserved

theorem reservedVariable_of_checkNames {terms : List Term} {cause : Error}
    (refused : checkNames terms = .error cause) : ∃ name, cause = .reservedVariable name := by
  induction terms with
  | nil => cases refused
  | cons term terms ih =>
    rw [checkNames] at refused
    split at refused
    · rename_i name _
      exact ⟨name, (Except.error.inj refused).symm⟩
    · exact ih refused

end Backchain
