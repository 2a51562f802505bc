import Backchain.Proofs.Term.FirstOccurrence
import Backchain.Proofs.Term.Goals
import Mathlib.Data.List.Forall2

/-!
The leaves of a goal.

Conjunctions join the leaves of a goal, in whatever way they are bracketed. What a goal asks for is read
off its leaves, one by one from the left, and so are its variables: goals with the same leaves ask for
the same, or are refused for the same leaf, and they mention the same variables in the same order.
-/
set_option autoImplicit false

namespace Backchain

section

variable {α β ε : Type} {f : α → Except ε β} {a : α} {all : List α}

theorem mapM_cons_of_error {e : ε} (first : f a = .error e) : (a :: all).mapM f = .error e := by
  rw [List.mapM_cons, first]
  rfl

theorem mapM_cons_of_ok {b : β} (first : f a = .ok b) :
    (a :: all).mapM f = (all.mapM f).map (b :: ·) := by
  rw [List.mapM_cons, first]
  rfl

theorem mapM_eq_ok_iff {results : List β} :
    all.mapM f = .ok results ↔ List.Forall₂ (fun a b => f a = .ok b) all results := by
  induction all generalizing results with
  | nil => cases results <;> simp [pure, Except.pure]
  | cons a all ih =>
    rw [List.forall₂_cons_left_iff]
    cases first : f a with
    | error e => simp [mapM_cons_of_error first]
    | ok b =>
      rw [mapM_cons_of_ok first]
      simp only [← ih, Except.ok.injEq, exists_and_left, exists_eq_left']
      cases all.mapM f <;> simp [Except.map, eq_comm]

/-- A run over a list fails with its first failing step. -/
theorem mapM_eq_error_iff {e : ε} :
    all.mapM f = .error e ↔ ∃ before a after, all = before ++ a :: after ∧
      (∀ x ∈ before, ∃ b, f x = .ok b) ∧ f a = .error e := by
  constructor
  · intro failed
    induction all with
    | nil => cases failed
    | cons a all ih =>
      cases first : f a with
      | error other =>
        rw [mapM_cons_of_error first] at failed
        obtain rfl := Except.error.inj failed
        exact ⟨[], a, all, rfl, List.forall_mem_nil _, first⟩
      | ok b =>
        rw [mapM_cons_of_ok first] at failed
        cases others : all.mapM f with
        | ok results => simp [others, Except.map] at failed
        | error other =>
          obtain rfl : other = e := by simpa [others, Except.map] using failed
          obtain ⟨before, x, after, rfl, done, fails⟩ := ih others
          exact ⟨a :: before, x, after, rfl, List.forall_mem_cons.mpr ⟨⟨b, first⟩, done⟩, fails⟩
  · rintro ⟨before, a, after, rfl, done, fails⟩
    induction before with
    | nil => exact mapM_cons_of_error fails
    | cons x before ih =>
      obtain ⟨⟨b, first⟩, done⟩ := List.forall_mem_cons.mp done
      rw [List.cons_append, mapM_cons_of_ok first, ih done]
      rfl

end

namespace Term

/-- The parts that conjunctions join, from left to right. -/
def leaves : Term → List Term
  | .conj left right => left.leaves ++ right.leaves
  | leaf => [leaf]

/-- The predicate that a part of a goal asks for. -/
def goal? : Term → Except Kind Predicate
  | .compound name args => .ok ⟨name, args⟩
  | other => .error other.kind

theorem goal?_eq_ok_iff {part : Term} {p : Predicate} : part.goal? = .ok p ↔ part = p.toTerm := by
  constructor
  · intro asked
    cases part <;> cases asked
    rfl
  · rintro rfl
    rfl

theorem goal?_eq_error_iff {part : Term} {found : Kind} :
    part.goal? = .error found ↔ (∀ p : Predicate, part ≠ p.toTerm) ∧ found = part.kind := by
  constructor
  · intro refused
    have kind : found = part.kind := by
      cases part <;> cases refused
      all_goals rfl
    refine ⟨?_, kind⟩
    rintro p rfl
    cases refused
  · rintro ⟨other, rfl⟩
    cases part with
    | compound name args => exact absurd rfl (other ⟨name, args⟩)
    | _ => rfl

theorem goals_eq_mapM (term : Term) : term.goals = term.leaves.mapM goal? := by
  induction term with
  | conj left right ihLeft ihRight =>
    rw [goals, leaves, List.mapM_append, ihLeft, ihRight]
    cases left.leaves.mapM goal? with
    | error found => rfl
    | ok first => cases right.leaves.mapM goal? <;> rfl
  | _ => rfl

theorem goals_eq_ok_iff {term : Term} {goals : List Predicate} :
    term.goals = .ok goals ↔ term.leaves = goals.map Predicate.toTerm := by
  rw [goals_eq_mapM, mapM_eq_ok_iff]
  simp only [goal?_eq_ok_iff]
  rw [← List.forall₂_map_right_iff, List.forall₂_eq_eq_eq]

theorem goals_eq_error_iff {term : Term} {found : Kind} :
    term.goals = .error found ↔ ∃ before leaf after, term.leaves = before ++ leaf :: after ∧
      (∀ part ∈ before, ∃ p : Predicate, part = p.toTerm) ∧
      (∀ p : Predicate, leaf ≠ p.toTerm) ∧ found = leaf.kind := by
  rw [goals_eq_mapM, mapM_eq_error_iff]
  simp only [goal?_eq_ok_iff, goal?_eq_error_iff]

theorem occurrences_leaves (term : Term) : term.occurrences = term.leaves.flatMap occurrences := by
  induction term with
  | conj left right ihLeft ihRight =>
    rw [occurrences, leaves, List.flatMap_append, ← ihLeft, ← ihRight]
  | _ => simp [leaves]

theorem occurrences_of_leaves {left right : Term} (same : left.leaves = right.leaves) :
    left.occurrences = right.occurrences := by
  rw [occurrences_leaves, same, ← occurrences_leaves]

theorem goals_of_leaves {left right : Term} (same : left.leaves = right.leaves) :
    left.goals = right.goals := by
  rw [goals_eq_mapM, same, ← goals_eq_mapM]

theorem vars_of_leaves {left right : Term} (same : left.leaves = right.leaves) :
    left.vars = right.vars := by
  rw [vars_eq, occurrences_of_leaves same, vars_eq]

theorem isGround_of_leaves {left right : Term} (same : left.leaves = right.leaves) :
    left.isGround = right.isGround := by
  rw [Bool.eq_iff_iff, isGround_iff, isGround_iff, occurrences_of_leaves same]

theorem findVar?_of_leaves {left right : Term} (same : left.leaves = right.leaves)
    (test : String → Bool) : left.findVar? test = right.findVar? test := by
  rw [findVar?_eq_find?, occurrences_of_leaves same, ← findVar?_eq_find?]

theorem checkNames_of_leaves {left right : Term} (same : left.leaves = right.leaves)
    (before : List Term) : checkNames (before ++ [left]) = checkNames (before ++ [right]) := by
  induction before with
  | nil => simp only [List.nil_append, checkNames, findVar?_of_leaves same]
  | cons term before ih => rw [List.cons_append, List.cons_append, checkNames, checkNames, ih]

theorem exists_ofGoals? {goals : List Predicate} (nonempty : goals ≠ []) :
    ∃ term, ofGoals? goals = some term ∧ term.goals = .ok goals := by
  induction goals with
  | nil => exact absurd rfl nonempty
  | cons p goals ih =>
    cases goals with
    | nil => exact ⟨p.toTerm, rfl, rfl⟩
    | cons q goals =>
      obtain ⟨rest, made, flat⟩ := ih (List.cons_ne_nil q goals)
      refine ⟨.conj p.toTerm rest, ?_, ?_⟩
      · rw [ofGoals?, made]
        · rfl
        · simp
      · have first : p.toTerm.goals = .ok [p] := rfl
        rw [Term.goals, first, flat]
        rfl

end Term

end Backchain
