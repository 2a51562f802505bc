import Mathlib.Logic.Equiv.Basic
import Backchain.Proofs.Env.Renaming
import Backchain.Proofs.Env.UnboundedUnify

/-!
Unification is symmetric.

With the sides exchanged, unification looks at the same pairs, and the environments differ in nothing
but which of two variables is bound to the other. So in both, the same variables stand for one another,
and a term has the same root, unless that is an unbound variable: then the roots are two members of one
class, and they correspond under a permutation of names, which takes in one more exchange of two names
wherever two variables are bound together. A run is followed pair by pair by the run on the exchanged
lists.
-/
set_option autoImplicit false

namespace Backchain

variable {naming : Equiv.Perm String}

/-- A variable gets another name, and any other term stays. -/
def Term.renameRoot (names : String → String) : Term → Term
  | .var x => .var (names x)
  | term => term

theorem Term.renameRoot_of_not_var {term : Term} (root : ∀ x, term ≠ .var x)
    (names : String → String) : term.renameRoot names = term := by
  cases term with
  | var x => exact absurd rfl (root x)
  | _ => rfl

theorem Term.renameRoot_eq_var_iff {term : Term} {x : String} :
    term.renameRoot naming = .var (naming x) ↔ term = .var x := by
  cases term with
  | var y => simp [renameRoot]
  | _ => simp [renameRoot]

namespace Env

/-! ## The root after one more binding -/

variable {env other : Env}

/-- Only what led to the new name has a new root. -/
theorem follow_bind {x : String} {bound : Term} (acyclic : env.Acyclic)
    (unbound : env.find? x = none) (apart : env.occurs x bound = false)
    (rooted : env.follow bound = bound) (differs : bound ≠ .var x) (term : Term) :
    (env.bind x bound).follow term = if env.follow term = .var x then bound else env.follow term := by
  have later := acyclic_bind acyclic unbound apart
  have found := find?_bind env x bound
  have stays : (env.bind x bound).follow bound = bound := by
    cases root : bound with
    | var y =>
      subst root
      have other : y ≠ x := fun same => differs (congrArg Term.var same)
      exact follow_of_free ((found y).trans ((if_neg other).trans (follow_free acyclic rooted)))
    | _ => exact follow_of_not_var _ (by simp)
  induction term using induct_through acyclic with
  | free y free =>
    rw [follow_of_free free]
    by_cases same : y = x
    · subst same
      rw [if_pos rfl, follow_of_bound later ((found y).trans (if_pos rfl)), stays]
    · rw [if_neg (by simpa using same)]
      exact follow_of_free ((found y).trans ((if_neg same).trans free))
  | bound y term bound ih =>
    have other : y ≠ x := by
      rintro rfl
      rw [unbound] at bound
      cases bound
    rw [follow_of_bound acyclic bound, ← ih]
    exact follow_of_bound later ((found y).trans ((if_neg other).trans bound))
  | _ =>
    rw [follow_of_not_var _ (by simp), follow_of_not_var _ (by simp), if_neg (by simp)]

/-! ## Two environments with the same classes of variables -/

/-- Both environments have as many bindings, and each term has the same root in both, up to the names
of unbound variables. -/
structure AgreeUpTo (naming : Equiv.Perm String) (env other : Env) : Prop where
  acyclic : env.Acyclic
  acyclicOther : other.Acyclic
  size : other.size = env.size
  roots : ∀ term, other.follow term = (env.follow term).renameRoot naming

theorem AgreeUpTo.refl (acyclic : env.Acyclic) : AgreeUpTo (Equiv.refl String) env env where
  acyclic := acyclic
  acyclicOther := acyclic
  size := rfl
  roots term := by cases env.follow term <;> rfl

theorem AgreeUpTo.free (agree : AgreeUpTo naming env other) {x : String}
    (free : env.find? x = none) : other.find? (naming x) = none := by
  have root := agree.roots (.var x)
  rw [follow_of_free free] at root
  exact follow_free agree.acyclicOther root

/-- The roots decide what the terms stand for. -/
theorem AgreeUpTo.substitute (agree : AgreeUpTo naming env other) (term : Term) :
    other.substitute term = (env.substitute term).rename naming := by
  induction term using induct_through agree.acyclic with
  | free x free =>
    have root := agree.roots (.var x)
    rw [follow_of_free free] at root
    rw [← substitute_follow agree.acyclicOther, root, substitute_var free]
    exact substitute_var (agree.free free)
  | bound x term bound ih =>
    have root := agree.roots (.var x)
    rw [follow_of_bound agree.acyclic bound, ← agree.roots term] at root
    rw [← substitute_follow agree.acyclicOther, root, substitute_follow agree.acyclicOther, ih,
      substitute_of_bound agree.acyclic bound]
  | compound name args ih =>
    rw [substitute_compound, substitute_compound, Term.rename_compound, List.map_map]
    exact congrArg (Term.compound name) (List.map_congr_left ih)
  | conj left right ihLeft ihRight =>
    exact congrArg₂ Term.conj ihLeft ihRight
  | _ => rfl

theorem AgreeUpTo.occurs (agree : AgreeUpTo naming env other) (x : String) (term : Term) :
    other.occurs (naming x) term = env.occurs x term := by
  rw [Bool.eq_iff_iff, occurs_iff, occurs_iff, agree.substitute, Term.occurrences_rename,
    List.mem_map_of_injective naming.injective]

/-! ## One step of both runs -/

/-- What is asked for when the sides are exchanged: of two variables the other one is bound. -/
def Comparison.exchange (names : String → String) : Comparison → Comparison
  | .agree => .agree
  | .bind x (.var y) => .bind (names y) (.var (names x))
  | .bind x term => .bind (names x) term
  | .descend args others => .descend others args
  | .clash => .clash

theorem compareRoots_exchange (left right : Term) :
    compareRoots (right.renameRoot naming) (left.renameRoot naming) =
      (compareRoots left right).exchange naming := by
  have apart := naming.injective
  cases left <;> cases right <;>
    grind [compareRoots, Comparison.exchange, Term.renameRoot, Function.Injective]

theorem AgreeUpTo.asked (agree : AgreeUpTo naming env other) {left right : Term}
    {comparison : Comparison}
    (asked : compareRoots (env.follow left) (env.follow right) = comparison) :
    compareRoots (other.follow right) (other.follow left) = comparison.exchange naming := by
  rw [agree.roots, agree.roots, compareRoots_exchange, asked]

/-- Where one of two variables is bound to the other, the one that is left takes over the name that
corresponds to the bound one. -/
theorem AgreeUpTo.bind_var (agree : AgreeUpTo naming env other) {x y : String}
    (free : env.find? x = none) (freeToo : env.find? y = none) (differs : x ≠ y) :
    AgreeUpTo ((Equiv.swap x y).trans naming) (env.bind x (.var y))
      (other.bind (naming y) (.var (naming x))) := by
  have apart := occurs_var_of_ne freeToo differs
  have apartOther := occurs_var_of_ne (agree.free free) (naming.injective.ne differs.symm)
  refine ⟨acyclic_bind agree.acyclic free apart,
    acyclic_bind agree.acyclicOther (agree.free freeToo) apartOther, ?_, ?_⟩
  · rw [size_bind (agree.free freeToo), size_bind free, agree.size]
  · intro term
    have here := follow_bind agree.acyclic free apart (follow_of_free freeToo)
      (by simpa using differs.symm) term
    have there := follow_bind agree.acyclicOther (agree.free freeToo) apartOther
      (follow_of_free (agree.free free)) (by simpa using naming.injective.ne differs) term
    rw [here, there, agree.roots]
    simp only [Term.renameRoot_eq_var_iff]
    -- What had either variable as its root has the one that is left, here `y` and there `naming x`.
    cases env.follow term with
    | var z =>
      by_cases first : z = x
      · subst first
        simp [Term.renameRoot, differs]
      · by_cases second : z = y
        · subst second
          simp [Term.renameRoot, differs.symm]
        · simp [Term.renameRoot, first, second, Equiv.swap_apply_of_ne_of_ne first second]
    | _ => simp [Term.renameRoot]

/-- Where a variable is bound to another term, it is the same term on both sides. -/
theorem AgreeUpTo.bind_root (agree : AgreeUpTo naming env other) {x : String} {term : Term}
    (free : env.find? x = none) (root : ∀ y, term ≠ .var y) (apart : env.occurs x term = false) :
    AgreeUpTo naming (env.bind x term) (other.bind (naming x) term) := by
  have apartOther : other.occurs (naming x) term = false := (agree.occurs x term).trans apart
  refine ⟨acyclic_bind agree.acyclic free apart,
    acyclic_bind agree.acyclicOther (agree.free free) apartOther, ?_, ?_⟩
  · rw [size_bind (agree.free free), size_bind free, agree.size]
  · intro looked
    have here := follow_bind agree.acyclic free apart (follow_of_not_var term root) (root x) looked
    have there := follow_bind agree.acyclicOther (agree.free free) apartOther
      (follow_of_not_var term root) (root (naming x)) looked
    rw [here, there, agree.roots]
    simp only [Term.renameRoot_eq_var_iff]
    split
    · exact (Term.renameRoot_of_not_var root naming).symm
    · rfl

/-- The binding that the exchanged sides ask for passes the occurs check if this one does, and then
both environments still have the same classes. -/
theorem AgreeUpTo.exchange_bind (agree : AgreeUpTo naming env other) {left right term : Term}
    {x : String} (asked : compareRoots (env.follow left) (env.follow right) = .bind x term) :
    ∃ y bound, (Comparison.bind x term).exchange naming = .bind y bound ∧
      other.occurs y bound = env.occurs x term ∧
      (env.occurs x term = false →
        ∃ naming, AgreeUpTo naming (env.bind x term) (other.bind y bound)) := by
  have free := unbound_of_compareRoots agree.acyclic asked
  obtain ⟨sides, differs⟩ := bind_of_compareRoots asked
  by_cases variable_ : ∃ y, term = .var y
  · obtain ⟨y, rfl⟩ := variable_
    have freeToo : env.find? y = none := by
      rcases sides with ⟨-, root⟩ | ⟨-, root⟩
      · exact follow_free agree.acyclic root
      · exact follow_free agree.acyclic root
    have apart : x ≠ y := fun same => differs (congrArg Term.var same.symm)
    refine ⟨naming y, .var (naming x), rfl, ?_, fun _ => ⟨_, agree.bind_var free freeToo apart⟩⟩
    rw [occurs_var_of_ne freeToo apart,
      occurs_var_of_ne (agree.free free) (naming.injective.ne apart.symm)]
  · have root : ∀ y, term ≠ .var y := fun y same => variable_ ⟨y, same⟩
    refine ⟨naming x, term, ?_, agree.occurs x term, fun apart => ⟨_, agree.bind_root free root apart⟩⟩
    cases term with
    | var y => exact absurd rfl (root y)
    | _ => rfl

/-! ## Whole runs -/

/-- The run on the exchanged lists succeeds or fails where this one does, and ends in an environment
with the same classes. -/
theorem Meets.exchange {lefts rights : List Term} {result : Bool × Env}
    (run : Meets env lefts rights result) (agree : AgreeUpTo naming env other) :
    ∃ naming last, Meets other rights lefts (result.1, last) ∧ AgreeUpTo naming result.2 last := by
  induction run generalizing naming other with
  | nil => exact ⟨naming, other, .nil other, agree⟩
  | agree asked _ ih =>
    obtain ⟨changed, last, run, agreeLast⟩ := ih agree
    exact ⟨changed, last, .agree (agree.asked asked) run, agreeLast⟩
  | bind asked apart _ ih =>
    obtain ⟨y, bound, exchanged, check, keeps⟩ := agree.exchange_bind asked
    obtain ⟨_, agreeNext⟩ := keeps apart
    obtain ⟨changed, last, run, agreeLast⟩ := ih agreeNext
    exact ⟨changed, last, .bind ((agree.asked asked).trans exchanged) (check.trans apart) run,
      agreeLast⟩
  | cyclic asked inside =>
    obtain ⟨y, bound, exchanged, check, -⟩ := agree.exchange_bind asked
    exact ⟨naming, other, .cyclic ((agree.asked asked).trans exchanged) (check.trans inside), agree⟩
  | descend asked _ _ ihWithin ihLater =>
    obtain ⟨_, middle, within, agreeMiddle⟩ := ihWithin agree
    obtain ⟨changed, last, later, agreeLast⟩ := ihLater agreeMiddle
    exact ⟨changed, last, .descend (agree.asked asked) within later, agreeLast⟩
  | fail asked _ ih =>
    obtain ⟨changed, last, within, agreeLast⟩ := ih agree
    exact ⟨changed, last, .fail (agree.asked asked) within, agreeLast⟩
  | clash asked => exact ⟨naming, other, .clash (agree.asked asked), agree⟩

/-- From every environment that the operations make, two terms are unified in either order or in
neither, by as many bindings, and what terms stand for afterwards differs in a one-to-one renaming of
variables only. -/
theorem unify_symmetric (env : Env) (reachable : env.Reachable) (left right : Term) :
    (env.unify right left).1 = (env.unify left right).1 ∧
      (env.unify right left).2.size = (env.unify left right).2.size ∧
      ∃ naming : Equiv.Perm String, ∀ term, (env.unify right left).2.substitute term =
        ((env.unify left right).2.substitute term).rename naming := by
  have acyclic := reachable.acyclic
  have run := extendAll_meets_single acyclic left right
  obtain ⟨naming, last, exchanged, agree⟩ := run.exchange (.refl acyclic)
  rw [run.unify_eq acyclic, exchanged.unify_eq acyclic]
  have back := (run.extends acyclic).undoTo
  have backExchanged := (exchanged.extends acyclic).undoTo
  generalize env.extendAll [left] [right] = result at agree back backExchanged
  obtain ⟨_ | _, next⟩ := result
  · simp only [settle, back, backExchanged]
    exact ⟨trivial, trivial, .refl String, (AgreeUpTo.refl acyclic).substitute⟩
  · exact ⟨rfl, agree.size, naming, agree.substitute⟩

/-- Three variables become one class, which either run leaves another variable of. -/
theorem unify_symmetric_chained :
    let f := fun left right => Term.compound "f" [left, right]
    let left := f (.var "Z") (.var "X")
    let right := f (.var "W") (f (.atom "a") (.var "V"))
    let first := (chained.unify left right).2
    let second := (chained.unify right left).2
    first.toList = chained.toList ++ [("Z", .var "W"), ("W", .var "V")] ∧
      second.toList = chained.toList ++ [("W", .var "Z"), ("V", .var "Z")] ∧
      ∃ naming : Equiv.Perm String, naming "V" = "Z" ∧
        ∀ term, second.substitute term = (first.substitute term).rename naming := by
  intro f left right first second
  obtain ⟨-, -, naming, renamed⟩ := unify_symmetric chained reachable_chained left right
  have here : first.substitute (.var "V") = .var "V" := by decide +kernel
  have there : second.substitute (.var "V") = .var "Z" := by decide +kernel
  have last := renamed (.var "V")
  rw [here, there] at last
  exact ⟨by decide +kernel, by decide +kernel, naming, (Term.var.inj last).symm, renamed⟩

end Env

end Backchain
