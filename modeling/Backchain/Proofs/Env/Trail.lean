import Backchain.Proofs.Env.UnboundedUnify

/-!
The trail.

Whether a run of unification succeeds or fails, all that it does to an environment is to add bindings
for unbound variables at the end: it never inserts at a bound name, which would change a term that lies
before the mark. So the number of bindings is a mark of the whole environment: going back to it undoes
a failure exactly, and undoes everything else that was done since, as long as nothing went back further.
Two predicates are unified as the terms that they are, and what is asked of a copy is what happens in
place.
-/
set_option autoImplicit false

namespace Backchain

namespace Env

open Relation (ReflTransGen)

variable {env : Env}

/-! ## What a run leaves -/

/-- A success keeps what was there and adds to it, and a failure changes nothing. -/
def Settled (env : Env) : Bool × Env → Prop
  | (true, next) => next.Extends env
  | (false, next) => next = env

theorem Settled.extends {outcome : Bool × Env} (settled : env.Settled outcome) :
    outcome.2.Extends env := by
  obtain ⟨_ | _, next⟩ := outcome
  · obtain rfl : next = env := settled
    exact .refl next
  · exact settled

theorem settled_settle {result : Bool × Env} (grows : result.2.Extends env) :
    env.Settled (settle env.size result) := by
  obtain ⟨_ | _, next⟩ := result
  · exact grows.undoTo
  · exact grows

theorem settled_unify (env : Env) (left right : Term) : env.Settled (env.unify left right) :=
  settled_settle (extendAll_extends env [left] [right])

theorem settled_unifyPredicates (env : Env) (left right : Predicate) :
    env.Settled (env.unifyPredicates left right) := by
  unfold unifyPredicates
  split
  · exact settled_settle (extendAll_extends env left.args right.args)
  · exact rfl

/-- What is left of a run, of whatever pairs and wherever it failed, is more bindings at the end. -/
theorem binds_extendAll (acyclic : env.Acyclic) (lefts rights : List Term) :
    ReflTransGen Binds env (env.extendAll lefts rights).2 := by
  induction lefts generalizing env rights with
  | nil => exact .refl
  | cons left lefts ih =>
    cases rights with
    | nil => exact .refl
    | cons right rights =>
      have run := extendAll_meets_single acyclic left right
      have first := run.binds acyclic
      have kept := run.acyclic acyclic
      rw [extendAll_cons]
      generalize env.extendAll [left] [right] = outcome at first kept
      obtain ⟨_ | _, middle⟩ := outcome
      · exact first
      · exact first.trans (ih kept rights)

/-! ## Marks -/

/-- The environments that the operations make from one while none of them goes back to before its
end. -/
inductive Onward (start : Env) : Env → Prop where
  | start : Onward start start
  | unify {env : Env} (before : Onward start env) (left right : Term) :
      Onward start (env.unify left right).2
  | unifyPredicates {env : Env} (before : Onward start env) (left right : Predicate) :
      Onward start (env.unifyPredicates left right).2
  | undoTo {env : Env} (before : Onward start env) {mark : Nat} (above : start.size ≤ mark) :
      Onward start (env.undoTo mark)

theorem Extends.undoTo_of_le {later earlier : Env} (extends_ : later.Extends earlier) {mark : Nat}
    (above : earlier.size ≤ mark) : (later.undoTo mark).Extends earlier := by
  rw [Extends, toList_undoTo]
  exact List.prefix_take_iff.mpr ⟨extends_, by rwa [length_toList]⟩

theorem Onward.extends {start : Env} (onward : start.Onward env) : env.Extends start := by
  induction onward with
  | start => exact .refl start
  | unify _ left right ih => exact (settled_unify _ left right).extends.trans ih
  | unifyPredicates _ left right ih => exact (settled_unifyPredicates _ left right).extends.trans ih
  | undoTo _ above ih => exact ih.undoTo_of_le above

/-! ## Predicates as terms -/

theorem compareRoots_toTerm (env : Env) (left right : Predicate) :
    compareRoots (env.follow left.toTerm) (env.follow right.toTerm) =
      if left.signature = right.signature then .descend left.args right.args else .clash := by
  rw [follow_of_not_var left.toTerm (by simp [Predicate.toTerm]),
    follow_of_not_var right.toTerm (by simp [Predicate.toTerm])]
  simp [compareRoots, Predicate.toTerm, Predicate.signature, Predicate.arity]

theorem unifyPredicates_eq_unify (acyclic : env.Acyclic) (left right : Predicate) :
    env.unifyPredicates left right = env.unify left.toTerm right.toTerm := by
  have asked := compareRoots_toTerm env left right
  unfold unifyPredicates
  by_cases same : left.signature = right.signature
  · rw [if_pos same] at asked
    have within := extendAll_meets acyclic (congrArg Signature.arity same)
    have run : Meets env [left.toTerm] [right.toTerm] (env.extendAll left.args right.args) := by
      generalize env.extendAll left.args right.args = result at within
      obtain ⟨_ | _, next⟩ := result
      · exact .fail asked within
      · exact .descend asked within (.nil next)
    rw [if_pos same, run.unify_eq acyclic]
  · rw [if_neg same] at asked
    have run : Meets env [left.toTerm] [right.toTerm] (false, env) := .clash asked
    have back : env.undoTo env.size = env := (Extends.refl env).undoTo
    rw [if_neg same, run.unify_eq acyclic, settle, back]

/-! ## On a copy -/

theorem unified?_eq_some_iff {left right : Term} {next : Env} :
    env.unified? left right = some next ↔ env.unify left right = (true, next) := by
  unfold unified?
  rcases env.unify left right with ⟨_ | _, later⟩ <;> simp

theorem unifiedPredicates?_eq_some_iff {left right : Predicate} {next : Env} :
    env.unifiedPredicates? left right = some next ↔
      env.unifyPredicates left right = (true, next) := by
  unfold unifiedPredicates?
  rcases env.unifyPredicates left right with ⟨_ | _, later⟩ <;> simp

/-- From every environment that the operations make, a run only binds unbound variables, at the end: it
comes to a root on every walk and inserts for unbound names only, whatever insertion makes of bound
ones. Its failure is undone exactly, and going back to the mark undoes whatever was done since. Unifying
predicates is unifying them as terms, and a copy is extended exactly when the environment would be, to
the same environment. -/
theorem trail_discipline (env : Env) (reachable : env.Reachable) :
    (∀ lefts rights, ReflTransGen Binds env (env.extendAll lefts rights).2 ∧
        ∀ insert, BindsUnbound insert →
          env.extendAllBy insert lefts rights = env.extendAll lefts rights) ∧
      (∀ term, env.walk term = some (env.follow term)) ∧
      (∀ left right, env.Settled (env.unify left right)) ∧
      (∀ left right : Predicate, env.Settled (env.unifyPredicates left right) ∧
        env.unifyPredicates left right = env.unify left.toTerm right.toTerm) ∧
      (∀ later, env.Onward later → later.undoTo env.size = env) ∧
      (∀ left right next,
        env.unified? left right = some next ↔ env.unify left right = (true, next)) ∧
      ∀ left right next, env.unifiedPredicates? left right = some next ↔
        env.unifyPredicates left right = (true, next) := by
  have acyclic := reachable.acyclic
  refine ⟨fun lefts rights => ⟨?_, ?_⟩, walk_eq acyclic, settled_unify env,
    fun left right => ⟨?_, ?_⟩, ?_, ?_, ?_⟩
  · exact binds_extendAll acyclic lefts rights
  · exact fun insert agrees => extendAllBy_eq agrees env lefts rights
  · exact settled_unifyPredicates env left right
  · exact unifyPredicates_eq_unify acyclic left right
  · exact fun later onward => onward.extends.undoTo
  · exact fun left right next => unified?_eq_some_iff
  · exact fun left right next => unifiedPredicates?_eq_some_iff

/-- A variable is bound before the second arguments fail, also if insertion would drop everything at a
bound name, and a mark is kept through bindings, a failure and a shorter way back. -/
theorem trail_discipline_chained :
    let left : Predicate := ⟨"p", [.var "Z", .atom "x"]⟩
    let right : Predicate := ⟨"p", [.atom "z", .atom "y"]⟩
    let bound := (chained.unify (.var "Z") (.var "W")).2
    let later := (((bound.unify (.var "W") (.atom "w")).2.undoTo 3).unifyPredicates left right).2
    (chained.extendAllBy insertOrReset [left.toTerm] [right.toTerm]).2.toList =
        chained.toList ++ [("Z", .atom "z")] ∧
      (chained.unify left.toTerm right.toTerm).2 = chained ∧
      chained.unifyPredicates left right = chained.unify left.toTerm right.toTerm ∧
      later.toList = chained.toList ++ [("Z", .var "W")] ∧
      later.undoTo chained.size = chained := by
  intro left right bound later
  obtain ⟨runs, -, terms, predicates, marks, -, -⟩ := trail_discipline chained reachable_chained
  have above : chained.size ≤ 3 := by decide
  have onward : chained.Onward later :=
    .unifyPredicates (.undoTo (.unify (.unify .start _ _) _ _) above) left right
  refine ⟨?_, ?_, (predicates left right).2, by decide +kernel, marks later onward⟩
  · rw [(runs _ _).2 insertOrReset bindsUnbound_insertOrReset]
    rfl
  · exact terms left.toTerm right.toTerm

end Env

end Backchain
