import Mathlib.Data.Finset.Card
import Mathlib.Logic.Relation
import Backchain.Env.Apply
import Backchain.Proofs.Term.Bind

/-!
Acyclic environments and the values of their variables.

A bound name leads to the variables of its term. Where no name leads back to itself, every name has a
rank that falls along each step and is at most the number of bindings. So the step bounds of
`follow`, `substitute` and `occurs` are never reached, every walk comes to its root, and the value of a
bound name is its term with the values of its variables put in: the values solve the bindings, and every
other solution factors through them.
-/
set_option autoImplicit false

namespace Backchain

namespace Env

open Relation (ReflTransGen TransGen)

theorem lookup_eq_some_iff {name : String} {term : Term} {entries : List (String × Term)}
    (once : (entries.map Prod.fst).Nodup) :
    entries.lookup name = some term ↔ (name, term) ∈ entries := by
  induction entries with
  | nil => simp
  | cons entry entries ih =>
    obtain ⟨other, bound⟩ := entry
    rw [List.map_cons, List.nodup_cons] at once
    rw [lookup_cons_eq, List.mem_cons, Prod.mk.injEq]
    by_cases same : name = other
    · subst same
      have absent : (name, term) ∉ entries := fun member =>
        once.1 (List.mem_map.mpr ⟨_, member, rfl⟩)
      simp [absent, eq_comm]
    · rw [if_neg same, ih once.2]
      simp [same]

theorem mem_toList_iff {env : Env} {name : String} {term : Term} :
    (name, term) ∈ env.toList ↔ env.find? name = some term := by
  rw [find?_eq_lookup, lookup_eq_some_iff env.nodup_names]

theorem size_bind {env : Env} {name : String} (unbound : env.find? name = none) (term : Term) :
    (env.bind name term).size = env.size + 1 := by
  rw [← length_toList, toList_bind unbound, List.length_append, length_toList, List.length_singleton]

/-! ## Initial parts -/

/-- The later environment has the bindings of the earlier one and then perhaps more. -/
def Extends (later earlier : Env) : Prop :=
  earlier.toList <+: later.toList

theorem Extends.refl (env : Env) : env.Extends env :=
  List.prefix_refl _

theorem Extends.trans {first second third : Env} (later : third.Extends second)
    (earlier : second.Extends first) : third.Extends first :=
  List.IsPrefix.trans earlier later

theorem Extends.find? {later earlier : Env} (extends_ : later.Extends earlier) {name : String}
    {term : Term} (bound : earlier.find? name = some term) : later.find? name = some term :=
  mem_toList_iff.mp (extends_.subset (mem_toList_iff.mpr bound))

theorem Extends.find?_eq_none {later earlier : Env} (extends_ : later.Extends earlier)
    {name : String} (free : later.find? name = none) : earlier.find? name = none := by
  cases bound : earlier.find? name with
  | none => rfl
  | some term =>
    rw [extends_.find? bound] at free
    cases free

theorem extends_bind {env : Env} {name : String} (unbound : env.find? name = none) (term : Term) :
    (env.bind name term).Extends env := by
  rw [Extends, toList_bind unbound]
  exact List.prefix_append _ _

theorem extends_undoTo (env : Env) (mark : Nat) : env.Extends (env.undoTo mark) := by
  rw [Extends, toList_undoTo]
  exact List.take_prefix _ _

theorem Extends.undoTo {later earlier : Env} (extends_ : later.Extends earlier) :
    later.undoTo earlier.size = earlier := by
  apply Env.ext
  rw [toList_undoTo, ← length_toList]
  exact (List.prefix_iff_eq_take.mp extends_).symm

/-! ## Ranks -/

/-- A bound name leads to the variables of its term. -/
def Leads (env : Env) (x y : String) : Prop :=
  ∃ term, env.find? x = some term ∧ y ∈ term.occurrences

def Acyclic (env : Env) : Prop :=
  ∀ x, ¬ TransGen env.Leads x x

variable {env later : Env}

theorem not_leads_of_free {x y : String} (free : env.find? x = none) : ¬ env.Leads x y := by
  rintro ⟨term, bound, -⟩
  rw [free] at bound
  cases bound

theorem Extends.leads {x y : String} (extends_ : later.Extends env) (leads : env.Leads x y) :
    later.Leads x y := by
  obtain ⟨term, bound, occurs⟩ := leads
  exact ⟨term, extends_.find? bound, occurs⟩

theorem Extends.acyclic (extends_ : later.Extends env) (acyclic : later.Acyclic) : env.Acyclic :=
  fun x cycle => acyclic x (cycle.lift id fun _ _ leads => extends_.leads leads)

theorem acyclic_of_rank (rank : String → Nat) (falls : ∀ x y, env.Leads x y → rank y < rank x) :
    env.Acyclic := by
  intro x cycle
  have below : ∀ y, TransGen env.Leads x y → rank y < rank x := by
    intro y path
    induction path with
    | single leads => exact falls _ _ leads
    | tail _ leads ih => exact Nat.lt_trans (falls _ _ leads) ih
  exact Nat.lt_irrefl _ (below x cycle)

theorem acyclic_empty : (∅ : Env).Acyclic :=
  acyclic_of_rank (fun _ => 0) fun x _ leads =>
    absurd leads (not_leads_of_free (by rw [find?_eq_lookup]; rfl))

open Classical in
/-- The number of bound names that a name leads to, itself included. -/
noncomputable def rank (env : Env) (x : String) : Nat :=
  ((env.toList.map Prod.fst).toFinset.filter fun y => ReflTransGen env.Leads x y).card

theorem rank_le_size (env : Env) (x : String) : env.rank x ≤ env.size := by
  classical
  calc env.rank x ≤ (env.toList.map Prod.fst).toFinset.card := by
        unfold rank
        exact Finset.card_filter_le _ _
    _ ≤ (env.toList.map Prod.fst).length := List.toFinset_card_le _
    _ = env.size := by rw [List.length_map, length_toList]

theorem mem_names {x : String} {term : Term} (bound : env.find? x = some term) :
    x ∈ env.toList.map Prod.fst :=
  List.mem_map_of_mem (f := Prod.fst) (mem_toList_iff.mpr bound)

theorem rank_pos {x : String} {term : Term} (bound : env.find? x = some term) : 0 < env.rank x := by
  classical
  apply Finset.card_pos.mpr
  exact ⟨x, Finset.mem_filter.mpr ⟨List.mem_toFinset.mpr (mem_names bound), .refl⟩⟩

theorem rank_lt {x y : String} (acyclic : env.Acyclic) (leads : env.Leads x y) :
    env.rank y < env.rank x := by
  classical
  obtain ⟨term, bound, occurs⟩ := leads
  have step : env.Leads x y := ⟨term, bound, occurs⟩
  apply Finset.card_lt_card
  rw [Finset.ssubset_iff_of_subset]
  · refine ⟨x, Finset.mem_filter.mpr ⟨List.mem_toFinset.mpr (mem_names bound), .refl⟩, ?_⟩
    intro member
    exact acyclic x (.head' step (Finset.mem_filter.mp member).2)
  · intro z member
    rw [Finset.mem_filter] at member ⊢
    exact ⟨member.1, .head step member.2⟩

/-! ## Values -/

/-- What a name stands for in the end. -/
def value (env : Env) : String → Term :=
  env.valueBelow env.size

theorem substitute_eq_bind (env : Env) (term : Term) : env.substitute term = term.bind env.value :=
  rfl

/-- A solution gives each bound name the value of its term. -/
def SolvedBy (env : Env) (value : String → Term) : Prop :=
  ∀ x term, env.find? x = some term → value x = term.bind value

theorem Extends.solvedBy {value : String → Term} (extends_ : later.Extends env)
    (solved : later.SolvedBy value) : env.SolvedBy value :=
  fun x term bound => solved x term (extends_.find? bound)

theorem valueBelow_stable (acyclic : env.Acyclic) (steps : Nat) (x : String)
    (enough : env.rank x ≤ steps) : env.valueBelow (steps + 1) x = env.valueBelow steps x := by
  induction steps generalizing x with
  | zero =>
    cases bound : env.find? x with
    | none => simp [valueBelow, bound]
    | some term =>
      have positive := rank_pos bound
      omega
  | succ steps ih =>
    cases bound : env.find? x with
    | none => simp [valueBelow, bound]
    | some term =>
      have agree : term.bind (env.valueBelow (steps + 1)) = term.bind (env.valueBelow steps) := by
        apply Term.bind_congr
        intro y occurs
        have lower := rank_lt acyclic ⟨term, bound, occurs⟩
        exact ih y (by omega)
      rw [valueBelow, valueBelow, bound]
      exact agree

theorem value_of_free {x : String} (free : env.find? x = none) : env.value x = .var x := by
  unfold value
  cases env.size with
  | zero => rfl
  | succ steps => simp [valueBelow, free]

theorem substitute_var {x : String} (free : env.find? x = none) :
    env.substitute (.var x) = .var x :=
  value_of_free free

/-- Where nothing is bound, nothing is replaced. -/
theorem substitute_of_free {term : Term} (free : ∀ x ∈ term.occurrences, env.find? x = none) :
    env.substitute term = term := by
  have same : term.bind env.value = term.bind .var :=
    Term.bind_congr fun x occurs => value_of_free (free x occurs)
  rw [substitute_eq_bind, same, Term.bind_var]

theorem value_of_bound {x : String} {term : Term} (acyclic : env.Acyclic)
    (bound : env.find? x = some term) : env.value x = term.bind env.value := by
  have stable := valueBelow_stable acyclic env.size x (env.rank_le_size x)
  rw [value, ← stable, valueBelow, bound]

theorem solvedBy_value (acyclic : env.Acyclic) : env.SolvedBy env.value :=
  fun _ _ bound => value_of_bound acyclic bound

theorem bind_valueBelow {value : String → Term} (solved : env.SolvedBy value) (steps : Nat)
    (x : String) : (env.valueBelow steps x).bind value = value x := by
  induction steps generalizing x with
  | zero => rfl
  | succ steps ih =>
    cases bound : env.find? x with
    | none => simp [valueBelow, bound, Term.bind]
    | some term =>
      have agree : (term.bind (env.valueBelow steps)).bind value = term.bind value := by
        rw [Term.bind_bind]
        exact Term.bind_congr fun y _ => ih y
      rw [valueBelow, bound, solved x term bound]
      exact agree

/-- Every solution factors through the values. -/
theorem bind_value {value : String → Term} (solved : env.SolvedBy value) (x : String) :
    (env.value x).bind value = value x :=
  bind_valueBelow solved env.size x

theorem leadsBelow_iff (target : String) (steps : Nat) (x : String) :
    env.leadsBelow target steps x = true ↔ target ∈ (env.valueBelow steps x).occurrences := by
  induction steps generalizing x with
  | zero =>
    rw [leadsBelow, valueBelow, Term.occurrences, List.mem_singleton, beq_iff_eq]
    exact eq_comm
  | succ steps ih =>
    cases bound : env.find? x with
    | none =>
      simp only [leadsBelow, valueBelow, bound, Term.occurrences, List.mem_singleton, beq_iff_eq]
      exact eq_comm
    | some term =>
      simp only [leadsBelow, valueBelow, bound]
      rw [Term.anyVar_eq_any, List.any_eq_true, Term.mem_occurrences_bind]
      exact exists_congr fun y => and_congr_right fun _ => ih y

theorem occurs_iff (env : Env) (target : String) (term : Term) :
    env.occurs target term = true ↔ target ∈ (env.substitute term).occurrences := by
  rw [occurs, Term.anyVar_eq_any, List.any_eq_true, substitute, Term.mem_occurrences_bind]
  exact exists_congr fun x => and_congr_right fun _ => leadsBelow_iff target env.size x

theorem mem_value_of_path {x y : String} (acyclic : env.Acyclic) (path : ReflTransGen env.Leads x y)
    (free : env.find? y = none) : y ∈ (env.value x).occurrences := by
  induction path using ReflTransGen.head_induction_on with
  | refl =>
    rw [value_of_free free]
    exact List.mem_singleton.mpr rfl
  | head leads _ ih =>
    obtain ⟨term, bound, occurs⟩ := leads
    rw [value_of_bound acyclic bound, Term.mem_occurrences_bind]
    exact ⟨_, occurs, ih⟩

theorem occurs_var_of_ne {x y : String} (free : env.find? y = none) (differs : x ≠ y) :
    env.occurs x (.var y) = false := by
  rw [Bool.eq_false_iff, ne_eq, occurs_iff, substitute_var free]
  exact fun member => differs (List.mem_singleton.mp member)

/-! ## New bindings -/

/-- The check before a binding keeps the environment acyclic: all names that lead to the new one
are lifted above the variables of its term. -/
theorem acyclic_bind {name : String} {term : Term} (acyclic : env.Acyclic)
    (unbound : env.find? name = none) (apart : env.occurs name term = false) :
    (env.bind name term).Acyclic := by
  classical
  let above : String → Nat := fun x =>
    if ReflTransGen env.Leads x name then env.rank x + env.size + 1 else env.rank x
  have avoids : ∀ y ∈ term.occurrences, ¬ ReflTransGen env.Leads y name := by
    intro y occurs path
    have inside := mem_value_of_path acyclic path unbound
    have found : env.occurs name term = true := by
      rw [occurs_iff, substitute_eq_bind, Term.mem_occurrences_bind]
      exact ⟨y, occurs, inside⟩
    rw [apart] at found
    cases found
  apply acyclic_of_rank above
  rintro x y ⟨bound, found, occurs⟩
  rw [find?_bind] at found
  by_cases fresh : x = name
  · subst fresh
    rw [if_pos rfl, Option.some.injEq] at found
    subst found
    have low := env.rank_le_size y
    simp only [above, if_neg (avoids y occurs), if_pos ReflTransGen.refl]
    omega
  · rw [if_neg fresh] at found
    have step : env.Leads x y := ⟨bound, found, occurs⟩
    have lower := rank_lt acyclic step
    simp only [above]
    by_cases path : ReflTransGen env.Leads y name
    · rw [if_pos path, if_pos (ReflTransGen.head step path)]
      omega
    · rw [if_neg path]
      split <;> omega

/-! ## Following a term to its root -/

theorem followBelow_free (acyclic : env.Acyclic) (steps : Nat) (term : Term)
    (enough : ∀ x, term = .var x → env.rank x ≤ steps) {x : String}
    (root : env.followBelow steps term = .var x) : env.find? x = none := by
  induction steps generalizing term with
  | zero =>
    rw [followBelow] at root
    cases bound : env.find? x with
    | none => rfl
    | some term =>
      have positive := rank_pos bound
      have low := enough x root
      omega
  | succ steps ih =>
    cases term with
    | var y =>
      cases bound : env.find? y with
      | none =>
        simp only [followBelow, bound, Term.var.injEq] at root
        exact root ▸ bound
      | some next =>
        simp only [followBelow, bound] at root
        apply ih next _ root
        rintro z rfl
        have lower := rank_lt acyclic ⟨_, bound, List.mem_singleton.mpr rfl⟩
        have low := enough y rfl
        omega
    | _ => cases root

theorem follow_free (acyclic : env.Acyclic) {term : Term} {x : String}
    (root : env.follow term = .var x) : env.find? x = none :=
  followBelow_free acyclic env.size term (fun y _ => env.rank_le_size y) root

/-! ## Walking to a root -/

/-- Whatever the bindings are, a walk that comes to a variable comes to an unbound one. -/
theorem free_of_follow? {fuel : Nat} {term : Term} {x : String}
    (root : env.follow? fuel term = some (.var x)) : env.find? x = none := by
  induction fuel generalizing term with
  | zero => cases root
  | succ fuel ih =>
    cases term with
    | var y =>
      cases bound : env.find? y with
      | none =>
        simp only [follow?, bound, Option.some.injEq, Term.var.injEq] at root
        exact root ▸ bound
      | some next =>
        simp only [follow?, bound] at root
        exact ih root
    | _ => cases root

theorem free_of_walk {term : Term} {x : String} (root : env.walk term = some (.var x)) :
    env.find? x = none :=
  free_of_follow? root

theorem follow?_of_followBelow_free (steps : Nat) (term : Term)
    (free : ∀ x, env.followBelow steps term = .var x → env.find? x = none) :
    env.follow? (steps + 1) term = some (env.followBelow steps term) := by
  induction steps generalizing term with
  | zero =>
    cases term with
    | var x => simp only [follow?, free x rfl, followBelow]
    | _ => rfl
  | succ steps ih =>
    cases term with
    | var x =>
      cases bound : env.find? x with
      | none => simp only [follow?, followBelow, bound]
      | some next =>
        simp only [followBelow, bound] at free
        rw [follow?, followBelow, bound]
        exact ih next free
    | _ => rfl

/-- Where no name leads back to itself, every walk comes to its root. -/
theorem walk_eq (acyclic : env.Acyclic) (term : Term) : env.walk term = some (env.follow term) :=
  follow?_of_followBelow_free env.size term fun _ root => follow_free acyclic root

/-! ## Where a root comes from -/

theorem followBelow_origin (steps : Nat) (term : Term) :
    env.followBelow steps term = term ∨
      ∃ x y, term = .var x ∧ ReflTransGen env.Leads x y ∧
        env.find? y = some (env.followBelow steps term) := by
  induction steps generalizing term with
  | zero => exact .inl rfl
  | succ steps ih =>
    cases term with
    | var x =>
      cases bound : env.find? x with
      | none => simp [followBelow, bound]
      | some next =>
        simp only [followBelow, bound]
        right
        rcases ih next with same | ⟨z, y, rfl, path, last⟩
        · exact ⟨x, x, rfl, .refl, by rw [same]; exact bound⟩
        · exact ⟨x, y, rfl, .head ⟨_, bound, List.mem_singleton.mpr rfl⟩ path, last⟩
    | _ => exact .inl rfl

/-- A term is its own root or a variable that leads to the name bound to the root. -/
theorem follow_origin (env : Env) (term : Term) :
    env.follow term = term ∨
      ∃ x y, term = .var x ∧ ReflTransGen env.Leads x y ∧ env.find? y = some (env.follow term) :=
  followBelow_origin env.size term

theorem bind_followBelow {value : String → Term} (solved : env.SolvedBy value) (steps : Nat)
    (term : Term) : (env.followBelow steps term).bind value = term.bind value := by
  induction steps generalizing term with
  | zero => rfl
  | succ steps ih =>
    cases term with
    | var x =>
      cases bound : env.find? x with
      | none => simp [followBelow, bound]
      | some next =>
        simp only [followBelow, bound]
        exact (ih next).trans (solved x next bound).symm
    | _ => rfl

theorem bind_follow {value : String → Term} (solved : env.SolvedBy value) (term : Term) :
    (env.follow term).bind value = term.bind value :=
  bind_followBelow solved env.size term

end Env

end Backchain
