import Backchain.Proofs.Env.Unbounded
import Backchain.Proofs.Term.FirstOccurrence

/-!
What answers show.

An answer holds the texts that it was given, in the order given, as long as no variable is given
twice. What it shows of an environment is read off the environment: the variables of a goal that are
bound, as the goal first mentions them, each with the text of what it stands for. To render a term in an
environment is to replace everything bound first and to render what is left by itself.
-/
set_option autoImplicit false

namespace Backchain

namespace Answer

theorem place_of_not_mem {name text : String} {bindings : List (String × String)}
    (absent : name ∉ bindings.map Prod.fst) :
    place name text bindings = bindings ++ [(name, text)] := by
  induction bindings with
  | nil => rfl
  | cons binding bindings ih =>
    obtain ⟨other, old⟩ := binding
    rw [List.map_cons, List.mem_cons, not_or] at absent
    rw [place, if_neg (Ne.symm absent.1), ih absent.2, List.cons_append]

theorem bindings_foldl_put (more : List (String × String)) (answer : Answer)
    (distinct : ((answer.bindings ++ more).map Prod.fst).Nodup) :
    (more.foldl (fun answer binding => answer.put binding.1 binding.2) answer).bindings =
      answer.bindings ++ more := by
  induction more generalizing answer with
  | nil => exact (List.append_nil _).symm
  | cons binding more ih =>
    have absent : binding.1 ∉ answer.bindings.map Prod.fst := by
      rw [List.map_append, List.map_cons] at distinct
      exact fun present => (List.nodup_append.mp distinct).2.2 _ present _ List.mem_cons_self rfl
    have placed : (answer.put binding.1 binding.2).bindings = answer.bindings ++ [binding] :=
      place_of_not_mem absent
    have regrouped : answer.bindings ++ binding :: more = answer.bindings ++ [binding] ++ more := by
      rw [List.append_assoc, List.singleton_append]
    rw [List.foldl_cons, ih _ (by rwa [placed, ← regrouped]), placed, regrouped]

theorem ext {first second : Answer} (same : first.bindings = second.bindings) :
    first = second := by
  cases first
  cases second
  cases same
  rfl

theorem bindings_ofList {bindings : List (String × String)}
    (distinct : (bindings.map Prod.fst).Nodup) : (ofList bindings).bindings = bindings :=
  bindings_foldl_put bindings .empty distinct

theorem ofList_bindings (answer : Answer) : ofList answer.bindings = answer :=
  ext (bindings_ofList answer.distinct)

end Answer

namespace Env

variable {env : Env}

theorem substitute_empty (term : Term) : (∅ : Env).substitute term = term := by
  apply substitute_of_free
  intro x _
  rw [find?_eq_lookup]
  rfl

/-- Rendering goes through the bindings as substitution does. -/
theorem render_eq_render_substitute (env : Env) (term : Term) :
    env.render term = (∅ : Env).render (env.substitute term) := by
  rw [render_eq, render_eq, substitute_empty]

/-- A bound variable is shown as the text of its term, which is the text of what it stands for. -/
theorem render_of_bound {x : String} {term : Term} (acyclic : env.Acyclic)
    (bound : env.find? x = some term) :
    env.render term = (∅ : Env).render (env.substitute (.var x)) := by
  rw [substitute_of_bound acyclic bound, render_eq_render_substitute]

/-- The names of the bindings that an answer is made of are those of the bound variables. -/
theorem map_fst_filterMap_find? (env : Env) (shown : Term → String) (names : List String) :
    (names.filterMap fun name => (env.find? name).map fun bound => (name, shown bound)).map Prod.fst =
      names.filter env.contains := by
  induction names with
  | nil => rfl
  | cons name names ih =>
    cases found : env.find? name <;> simp [contains, found, ih]

theorem bindings_answer {names : List String} (once : names.Nodup) :
    (env.answer names).bindings =
      names.filterMap fun name => (env.find? name).map fun bound => (name, env.render bound) := by
  apply Answer.bindings_ofList
  rw [map_fst_filterMap_find?]
  exact once.filter _

end Env

namespace Answer

/-- The answer shows the variables of a goal that an environment binds, all of them and no others, in
the order in which they first occur in the goal, each with the text of what it stands for. -/
structure Shows (goal : Term) (env : Env) (answer : Answer) : Prop where
  names : ∀ x, x ∈ answer.bindings.map Prod.fst ↔ x ∈ goal.occurrences ∧ env.contains x = true
  inOrder : (answer.bindings.map Prod.fst).Pairwise fun x y =>
    goal.occurrences.idxOf x < goal.occurrences.idxOf y
  texts : ∀ x text, (x, text) ∈ answer.bindings →
    text = (∅ : Env).render (env.substitute (.var x))

theorem shows_answer {env : Env} (acyclic : env.Acyclic) (goal : Term) :
    Shows goal env (env.answer goal.vars) := by
  have made : (env.answer goal.vars).bindings = _ := Env.bindings_answer goal.nodup_vars
  have names : (env.answer goal.vars).bindings.map Prod.fst = goal.vars.filter env.contains := by
    rw [made, Env.map_fst_filterMap_find?]
  refine ⟨?_, ?_, ?_⟩
  · intro x
    rw [names, List.mem_filter, Term.mem_vars]
  · rw [names]
    exact goal.pairwise_vars.filter _
  · intro x text member
    rw [made] at member
    obtain ⟨name, -, shown⟩ := List.mem_filterMap.mp member
    obtain ⟨term, bound, same⟩ := Option.map_eq_some_iff.mp shown
    obtain ⟨rfl, rfl⟩ := Prod.mk.inj same
    exact Env.render_of_bound acyclic bound

end Answer

end Backchain
