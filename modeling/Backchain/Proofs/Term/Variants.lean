import Mathlib.SetTheory.Cardinal.Arithmetic
import Backchain.Proofs.Term.Bind

/-!
Terms that differ in the names of their variables only.

If each of two terms is an instance of the other, what is put for the variables of one are variables
again, and different ones for different variables. There are names enough to make a renaming of all
names out of that.
-/
set_option autoImplicit false

namespace Backchain

/-- Finitely many names that stay apart under some change can be changed so by a renaming of all
names. -/
theorem exists_renaming_of_injOn {names : List String} {change : String → String}
    (apart : Set.InjOn change {x | x ∈ names}) :
    ∃ naming : Equiv.Perm String, ∀ x ∈ names, naming x = change x := by
  have few : Cardinal.mk {x | x ∈ names} < Cardinal.mk String :=
    (Cardinal.lt_aleph0_iff_set_finite.mpr names.finite_toSet).trans_le (Cardinal.aleph0_le_mk _)
  obtain ⟨naming, same⟩ := Cardinal.extend_function_of_lt
    ⟨fun x : {x | x ∈ names} => change x, apart.injective⟩ few ⟨Equiv.refl String⟩
  exact ⟨naming, fun x member => same ⟨x, member⟩⟩

namespace Term

theorem eq_of_bind_eq {term : Term} {first second : String → Term}
    (same : term.bind first = term.bind second) :
    ∀ x ∈ term.occurrences, first x = second x := by
  induction term with
  | var name =>
    intro x occurs
    obtain rfl := List.mem_singleton.mp occurs
    exact same
  | compound name args ih =>
    rw [bind_compound, bind_compound, compound.injEq, List.map_inj_left] at same
    intro x occurs
    rw [occurrences_compound, List.mem_flatMap] at occurs
    obtain ⟨arg, member, inside⟩ := occurs
    exact ih arg member (same.2 arg member) x inside
  | conj left right ihLeft ihRight =>
    obtain ⟨onLeft, onRight⟩ := conj.inj same
    intro x occurs
    rcases List.mem_append.mp occurs with inLeft | inRight
    · exact ihLeft onLeft x inLeft
    · exact ihRight onRight x inRight
  | _ => exact fun _ occurs => absurd occurs List.not_mem_nil

theorem exists_var_of_bind {term : Term} {value : String → Term} {x : String}
    (same : term.bind value = .var x) : ∃ y, term = .var y := by
  cases term with
  | var y => exact ⟨y, rfl⟩
  | compound name args =>
    rw [bind_compound] at same
    cases same
  | _ => cases same

/-- Two terms that are instances of each other are one up to a renaming. -/
theorem exists_renaming_of_instances {first second : Term} {there back : String → Term}
    (instance_ : second = first.bind there) (converse : first = second.bind back) :
    ∃ naming : Equiv.Perm String, second = first.rename naming := by
  have round : ∀ x ∈ first.occurrences, (there x).bind back = .var x := by
    apply eq_of_bind_eq
    rw [← bind_bind, ← instance_, ← converse, bind_var]
  choose! change same using fun x occurs => exists_var_of_bind (round x occurs)
  have apart : Set.InjOn change {x | x ∈ first.occurrences} := by
    intro x occurs y occursOther equal
    have atX := round x occurs
    have atY := round y occursOther
    rw [same x occurs, equal, ← same y occursOther, atY] at atX
    exact (Term.var.inj atX).symm
  obtain ⟨naming, agrees⟩ := exists_renaming_of_injOn apart
  refine ⟨naming, ?_⟩
  rw [instance_, rename]
  apply bind_congr
  intro x occurs
  rw [same x occurs, agrees x occurs]

end Term

end Backchain
