import Std.Data.String.ToNat
import Backchain.Search
import Backchain.Proofs.Env.Meets
import Backchain.Proofs.Term.Goals

/-!
The names of rule copies.

A copy name is a name, the mark and a number. Digits are never the mark, so the last mark of a copy
name tells the name and the number apart, even when the name has marks itself: copies with different
numbers share no name. A name is below a number if it is no copy name with a greater number; then
values for the variables of a new copy can be chosen freely without changing the values in use.
-/
set_option autoImplicit false

namespace Backchain

theorem eq_of_append_mark {mark : Char} {first second before after : List Char}
    (plainFirst : mark ∉ before) (plainSecond : mark ∉ after)
    (same : first ++ mark :: before = second ++ mark :: after) :
    first = second ∧ before = after := by
  induction first generalizing second with
  | nil =>
    cases second with
    | nil => exact ⟨rfl, (List.cons.inj same).2⟩
    | cons c second =>
      rw [List.nil_append, List.cons_append, List.cons.injEq] at same
      rw [same.2] at plainFirst
      exact absurd (List.mem_append_right _ List.mem_cons_self) plainFirst
  | cons c first ih =>
    cases second with
    | nil =>
      rw [List.nil_append, List.cons_append, List.cons.injEq] at same
      rw [← same.2] at plainSecond
      exact absurd (List.mem_append_right _ List.mem_cons_self) plainSecond
    | cons d second =>
      rw [List.cons_append, List.cons_append, List.cons.injEq] at same
      obtain ⟨rfl, rest⟩ := ih same.2
      exact ⟨by rw [same.1], rest⟩

theorem mark_not_mem_toString (number : Nat) : copyMark ∉ (toString number).toList := by
  intro member
  rw [Nat.toString_eq_repr, Nat.toList_repr] at member
  have digit := Nat.isDigit_of_mem_toDigits (by decide) (by decide) member
  exact absurd digit (by decide)

theorem toList_copyName (number : Nat) (name : String) :
    (copyName number name).toList = name.toList ++ copyMark :: (toString number).toList := by
  rw [copyName, String.toList_append, String.toList_push, List.append_assoc]
  rfl

theorem copyName_inj {number other : Nat} {name target : String} :
    copyName number name = copyName other target ↔ number = other ∧ name = target := by
  constructor
  · intro same
    have chars := congrArg String.toList same
    rw [toList_copyName, toList_copyName] at chars
    obtain ⟨names, digits⟩ :=
      eq_of_append_mark (mark_not_mem_toString number) (mark_not_mem_toString other) chars
    rw [String.toList_inj, Nat.toString_eq_repr, Nat.toString_eq_repr] at digits
    exact ⟨Nat.repr_injective digits, String.toList_inj.mp names⟩
  · rintro ⟨rfl, rfl⟩
    rfl

theorem isReserved_copyName (number : Nat) (name : String) :
    isReserved (copyName number name) = true := by
  rw [isReserved, toList_copyName]
  simp

/-- No copy name with a greater number. -/
def Below (number : Nat) (name : String) : Prop :=
  ∀ other target, number < other → name ≠ copyName other target

theorem Below.mono {number later : Nat} {name : String} (below : Below number name)
    (greater : number ≤ later) : Below later name :=
  fun other target above => below other target (Nat.lt_of_le_of_lt greater above)

theorem below_copyName (number : Nat) (name : String) : Below number (copyName number name) := by
  intro other target above same
  have numbers := (copyName_inj.mp same).1
  omega

theorem below_of_not_reserved {name : String} (free : isReserved name = false) (number : Nat) :
    Below number name := by
  rintro other target - rfl
  rw [isReserved_copyName] at free
  cases free

def Term.IsBelow (number : Nat) (term : Term) : Prop :=
  ∀ x ∈ term.occurrences, Below number x

theorem Term.IsUnmarked.isBelow {term : Term} (unmarked : term.IsUnmarked) (number : Nat) :
    term.IsBelow number :=
  fun x occurs => below_of_not_reserved (unmarked x occurs) number

theorem Term.IsBelow.mono {number later : Nat} {term : Term} (below : term.IsBelow number)
    (greater : number ≤ later) : term.IsBelow later :=
  fun x occurs => (below x occurs).mono greater

theorem hereditary_isBelow (number : Nat) : Env.Hereditary (Term.IsBelow number) := by
  intro name args below arg member x occurs
  exact below x (Term.mem_occurrences_compound member occurs)

def Predicate.IsBelow (number : Nat) (p : Predicate) : Prop :=
  ∀ arg ∈ p.args, arg.IsBelow number

theorem Predicate.IsUnmarked.isBelow {p : Predicate} (unmarked : p.IsUnmarked) (number : Nat) :
    p.IsBelow number :=
  fun arg member => (unmarked arg member).isBelow number

theorem Predicate.IsBelow.mono {number later : Nat} {p : Predicate} (below : p.IsBelow number)
    (greater : number ≤ later) : p.IsBelow later :=
  fun arg member => (below arg member).mono greater

theorem Predicate.IsBelow.occurrences {number : Nat} {p : Predicate} (below : p.IsBelow number) :
    ∀ x ∈ p.occurrences, Below number x := by
  intro x occurs
  obtain ⟨arg, member, inside⟩ := List.mem_flatMap.mp occurs
  exact below arg member x inside

theorem Predicate.isBelow_rename (number : Nat) (p : Predicate) :
    (p.rename (copyName number)).IsBelow number := by
  intro arg member x occurs
  obtain ⟨before, -, rfl⟩ := List.mem_map.mp member
  rw [Term.occurrences_rename] at occurs
  obtain ⟨name, -, rfl⟩ := List.mem_map.mp occurs
  exact below_copyName number name

theorem Rule.isBelow_of_mem_copiedGoals {rule : Rule} {number : Nat} {goal : Predicate}
    (member : goal ∈ rule.copiedGoals number) : goal.IsBelow number := by
  obtain ⟨origin, -, rfl⟩ := List.mem_map.mp member
  exact Predicate.isBelow_rename number origin

/-! ## Values for the variables of copies -/

open Classical in
/-- Gives the variables of numbered copies their own values. -/
noncomputable def withCopies {ι : Type} (value : String → Term) (number : ι → Nat)
    (inner : ι → String → Term) : String → Term := fun name =>
  if copy : ∃ index target, name = copyName (number index) target then
    inner copy.choose copy.choose_spec.choose
  else value name

section

variable {ι : Type} {value : String → Term} {number : ι → Nat} {inner : ι → String → Term}

theorem withCopies_copyName (alike : ∀ i j, number i = number j → inner i = inner j) (index : ι)
    (name : String) : withCopies value number inner (copyName (number index) name) =
      inner index name := by
  have copy : ∃ i target, copyName (number index) name = copyName (number i) target :=
    ⟨index, name, rfl⟩
  obtain ⟨numbers, names⟩ := copyName_inj.mp copy.choose_spec.choose_spec
  rw [withCopies, dif_pos copy, ← names, alike index _ numbers]

theorem withCopies_of_below {bound : Nat} {name : String} (below : Below bound name)
    (above : ∀ index, bound < number index) : withCopies value number inner name = value name := by
  rw [withCopies, dif_neg]
  rintro ⟨index, target, same⟩
  exact below _ _ (above index) same

theorem bind_withCopies {bound : Nat} {p : Predicate} (below : p.IsBelow bound)
    (above : ∀ index, bound < number index) :
    p.bind (withCopies value number inner) = p.bind value := by
  apply Predicate.bind_congr
  exact fun x occurs => withCopies_of_below (below.occurrences x occurs) above

theorem solvedBy_withCopies {bound : Nat} {env : Env} (below : env.Every (Term.IsBelow bound))
    (above : ∀ index, bound < number index) (solved : env.SolvedBy value) :
    env.SolvedBy (withCopies value number inner) := by
  intro x term bound
  obtain ⟨name, inside⟩ := below x term bound
  rw [withCopies_of_below (name x (List.mem_singleton.mpr rfl)) above, solved x term bound]
  exact Term.bind_congr fun y occurs => (withCopies_of_below (inside y occurs) above).symm

end

end Backchain
