import Mathlib.Data.List.Basic
import Mathlib.Data.List.Induction
import Backchain.Term.Variables

/-!
The order of first occurrence.

Gathering the variables of a term adds each name that it meets for the first time, so the variables are
the occurrences without the repeats. Each variable that occurs is listed once, and one is listed before
another if and only if its first place among the occurrences is before the first place of the other. A
search for the first that passes a test may go through either.
-/
set_option autoImplicit false

namespace Backchain

theorem eraseDups_concat (names : List String) (last : String) :
    (names ++ [last]).eraseDups = names.eraseDups ++ if last ∈ names then [] else [last] := by
  rw [List.eraseDups_append]
  by_cases repeated : last ∈ names <;> simp [List.removeAll, List.eraseDups_cons, repeated]

/-- Without repeats, names are in the order of their first places. -/
theorem pairwise_eraseDups (names : List String) :
    names.eraseDups.Pairwise fun x y => names.idxOf x < names.idxOf y := by
  induction names using List.reverseRecOn with
  | nil => exact .nil
  | append_singleton names last ih =>
    have stays : ∀ x ∈ names.eraseDups, (names ++ [last]).idxOf x = names.idxOf x :=
      fun x member => List.idxOf_append_of_mem (List.mem_eraseDups.mp member)
    rw [eraseDups_concat, List.pairwise_append]
    refine ⟨?_, ?_, ?_⟩
    · apply ih.imp_of_mem
      intro x y memberX memberY before
      rwa [stays x memberX, stays y memberY]
    · split <;> simp
    · intro x member y new
      split at new
      · exact absurd new List.not_mem_nil
      · rename_i absent
        obtain rfl := List.mem_singleton.mp new
        have early := List.idxOf_lt_length_iff.mpr (List.mem_eraseDups.mp member)
        rw [stays x member, List.idxOf_append_of_notMem absent]
        omega

/-- Without repeats, the first name that passes a test is the same. -/
theorem find?_eraseDups (test : String → Bool) (names : List String) :
    names.eraseDups.find? test = names.find? test := by
  induction names using List.reverseRecOn with
  | nil => rfl
  | append_singleton names last ih =>
    rw [eraseDups_concat, List.find?_append, List.find?_append, ih]
    split
    · rename_i repeated
      cases found : names.find? test with
      | some name => rfl
      | none =>
        have fails := List.find?_eq_none.mp found last repeated
        rw [List.find?_nil, List.find?_cons_of_neg fails]
        rfl
    · rfl

namespace Term

/-- Gathering after what came before gives the names of both, without the repeats. -/
theorem gather_eraseDups (term : Term) (before : List String) :
    term.gather before.eraseDups = (before ++ term.occurrences).eraseDups := by
  induction term generalizing before with
  | var name =>
    rw [gather, occurrences, eraseDups_concat]
    by_cases repeated : name ∈ before <;> simp [repeated]
  | compound name args each =>
    rw [gather, occurrences, gatherAll_eq_foldl, occurrencesAll_eq_flatMap]
    induction args generalizing before with
    | nil => simp
    | cons arg args ih =>
      rw [List.foldl_cons, each arg List.mem_cons_self, List.flatMap_cons, ← List.append_assoc]
      exact ih (fun other member => each other (List.mem_cons_of_mem _ member)) _
  | conj left right ihLeft ihRight =>
    rw [gather, occurrences, ihLeft, ihRight, List.append_assoc]
  | _ => simp [gather, occurrences]

theorem vars_eq (term : Term) : term.vars = term.occurrences.eraseDups :=
  gather_eraseDups term []

theorem mem_vars {term : Term} {x : String} : x ∈ term.vars ↔ x ∈ term.occurrences := by
  rw [vars_eq, List.mem_eraseDups]

theorem pairwise_vars (term : Term) :
    term.vars.Pairwise fun x y => term.occurrences.idxOf x < term.occurrences.idxOf y := by
  rw [vars_eq]
  exact pairwise_eraseDups term.occurrences

theorem nodup_vars (term : Term) : term.vars.Nodup :=
  term.pairwise_vars.imp fun before same => by
    rw [same] at before
    exact Nat.lt_irrefl _ before

end Term

end Backchain
