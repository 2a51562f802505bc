import Backchain.Proofs.Term.FirstOccurrence
import Backchain.Proofs.Term.Goals
import Backchain.Proofs.Term.Leaves
import Backchain.Proofs.Term.Places

/-!
What the traversals of a term have in common.

Listing the variables of a term, asking whether there are any, and checking their names are three
recursions over terms. They agree because each can be read off the occurrences of the term, and the
listing decides the other two: a term is ground if nothing is listed, and it is refused for the first
name listed that is reserved. Of several terms, the first that is refused by itself decides.
-/
set_option autoImplicit false

namespace Backchain

theorem Term.isGround_iff_vars (term : Term) : term.isGround = true ↔ term.vars = [] := by
  rw [isGround_iff, List.eq_nil_iff_forall_not_mem, List.eq_nil_iff_forall_not_mem]
  simp only [mem_vars]

theorem Term.standsBefore_vars (term : Term) :
    term.vars.Pairwise (StandsBefore (VarAt term)) :=
  term.pairwise_vars.imp standsBefore_of_idxOf_lt

theorem checkNames_singleton (term : Term) :
    checkNames [term] =
      match term.vars.find? isReserved with
      | some name => .error (.reservedVariable name)
      | none => .ok () := by
  rw [checkNames, Term.findVar?_eq_find?, Term.vars_eq, find?_eraseDups]
  rfl

theorem checkNames_cons (term : Term) (terms : List Term) :
    checkNames (term :: terms) =
      match checkNames [term] with
      | .error cause => .error cause
      | .ok () => checkNames terms := by
  simp only [checkNames]
  cases term.findVar? isReserved <;> rfl

theorem checkNames_eq_mapM (terms : List Term) :
    checkNames terms = (terms.mapM fun term => checkNames [term]).map fun _ => () := by
  induction terms with
  | nil => rfl
  | cons term terms ih =>
    rw [checkNames_cons]
    cases first : checkNames [term] with
    | error cause =>
      rw [mapM_cons_of_error (f := fun term => checkNames [term]) first]
      rfl
    | ok =>
      rw [mapM_cons_of_ok (f := fun term => checkNames [term]) first, ih]
      cases terms.mapM fun term => checkNames [term] <;> rfl

theorem checkNames_eq_error_iff {terms : List Term} {cause : Error} :
    checkNames terms = .error cause ↔ ∃ before term after, terms = before ++ term :: after ∧
      (∀ earlier ∈ before, checkNames [earlier] = .ok ()) ∧ checkNames [term] = .error cause := by
  have refused : checkNames terms = .error cause ↔
      (terms.mapM fun term => checkNames [term]) = .error cause := by
    rw [checkNames_eq_mapM]
    cases terms.mapM fun term => checkNames [term] <;> simp [Except.map]
  have passes (term : Term) : (∃ done, checkNames [term] = .ok done) ↔ checkNames [term] = .ok () :=
    ⟨fun ⟨_, passed⟩ => passed, fun passed => ⟨(), passed⟩⟩
  simp only [refused, mapM_eq_error_iff, passes]

/-- The variables of a term are listed once each, if they stand anywhere in it, and one is listed before
another if it stands somewhere before all places of the other. The term is ground if and only if none is
listed, and its names are refused if and only if one that is listed has the mark of rule copies, the
first of which is reported. Of several terms, the first that is refused is reported as it is by itself. -/
theorem traversals_agree :
    (∀ term : Term,
      ((∀ x, x ∈ term.vars ↔ ∃ place, term.VarAt place x) ∧ term.vars.Nodup ∧
        term.vars.Pairwise fun x y =>
          ∃ first, term.VarAt first x ∧ ∀ place, term.VarAt place y → first < place) ∧
      (term.isGround = true ↔ term.vars = []) ∧
      checkNames [term] =
        match term.vars.find? fun x => x.toList.contains '#' with
        | some x => .error (.reservedVariable x)
        | none => .ok ()) ∧
    ∀ (terms : List Term) (cause : Error), checkNames terms = .error cause ↔
      ∃ before term after, terms = before ++ term :: after ∧
        (∀ earlier ∈ before, checkNames [earlier] = .ok ()) ∧ checkNames [term] = .error cause := by
  refine ⟨?one, fun _ _ => checkNames_eq_error_iff⟩
  case one =>
    intro term
    have listed (x : String) : x ∈ term.vars ↔ ∃ place, term.VarAt place x :=
      Term.mem_vars.trans Term.mem_occurrences_iff
    exact ⟨⟨listed, term.nodup_vars, term.standsBefore_vars⟩, term.isGround_iff_vars,
      checkNames_singleton term⟩

end Backchain
