import Backchain.Env.Unify
import Backchain.Proofs.Env.Acyclic

/-!
Unification as a relation.

`Meets env lefts rights result` says how the pairs of two lists are unified from left to right, with
no bound on the descent. A step looks at the roots of the first pair only: they agree, one of them is
a variable to bind, both are compounds to descend into, or they clash. What unification keeps and
what it solves is read off the relation; that the relation has a run from every acyclic environment,
and that it is the run of the program, is shown elsewhere.
-/
set_option autoImplicit false

namespace Backchain

namespace Env

open Relation (ReflTransGen)

/-- What the roots of two terms ask for. -/
inductive Comparison where
  | agree
  | bind (name : String) (term : Term)
  | descend (args others : List Term)
  | clash

def compareRoots : Term → Term → Comparison
  | .var x, .var y => if x = y then .agree else .bind x (.var y)
  | .var x, term => .bind x term
  | term, .var y => .bind y term
  | .atom a, .atom b => if a = b then .agree else .clash
  | .number a, .number b => if a = b then .agree else .clash
  | .string a, .string b => if a = b then .agree else .clash
  | .compound f args, .compound g others =>
    if f = g ∧ args.length = others.length then .descend args others else .clash
  | _, _ => .clash

theorem meetRoots_eq (descend : Env → List Term → List Term → Bool × Env) (env : Env)
    (left right : Term) :
    meetRoots descend env left right =
      match compareRoots left right with
      | .agree => (true, env)
      | .bind name term => env.assign name term
      | .descend args others => descend env args others
      | .clash => (false, env) := by
  cases left <;> cases right <;> grind [compareRoots, meetRoots]

theorem meet_eq {env : Env} (acyclic : env.Acyclic)
    (descend : Env → List Term → List Term → Bool × Env) (left right : Term) :
    meet descend env left right = meetRoots descend env (env.follow left) (env.follow right) := by
  rw [meet, walk_eq acyclic left, walk_eq acyclic right]

theorem eq_of_compareRoots {left right : Term} (agree : compareRoots left right = .agree) :
    left = right := by
  cases left <;> cases right <;> grind [compareRoots]

theorem bind_of_compareRoots {left right term : Term} {name : String}
    (asked : compareRoots left right = .bind name term) :
    (left = .var name ∧ right = term ∨ right = .var name ∧ left = term) ∧ term ≠ .var name := by
  cases left <;> cases right <;> grind [compareRoots]

theorem descend_of_compareRoots {left right : Term} {args others : List Term}
    (asked : compareRoots left right = .descend args others) :
    ∃ name, left = .compound name args ∧ right = .compound name others ∧
      args.length = others.length := by
  cases left <;> cases right <;> grind [compareRoots]

/-- Roots of plain terms clash only if no values make the terms equal. -/
theorem bind_ne_of_compareRoots {left right : Term} (plainLeft : left.isPlain = true)
    (plainRight : right.isPlain = true) (clash : compareRoots left right = .clash)
    (value : String → Term) : left.bind value ≠ right.bind value := by
  intro same
  cases left <;> cases right <;>
    grind [compareRoots, Term.bind, Term.isPlain, Term.bind_compound, List.length_map]

/-- The pairs of two lists are unified from left to right, up to the first pair that fails. -/
inductive Meets : Env → List Term → List Term → Bool × Env → Prop where
  | nil (env : Env) : Meets env [] [] (true, env)
  | agree {env left right lefts rights result}
      (asked : compareRoots (env.follow left) (env.follow right) = .agree)
      (later : Meets env lefts rights result) :
      Meets env (left :: lefts) (right :: rights) result
  | bind {env left right lefts rights result name term}
      (asked : compareRoots (env.follow left) (env.follow right) = .bind name term)
      (apart : env.occurs name term = false)
      (later : Meets (env.bind name term) lefts rights result) :
      Meets env (left :: lefts) (right :: rights) result
  | cyclic {env left right lefts rights name term}
      (asked : compareRoots (env.follow left) (env.follow right) = .bind name term)
      (inside : env.occurs name term = true) :
      Meets env (left :: lefts) (right :: rights) (false, env)
  | descend {env middle left right lefts rights result args others}
      (asked : compareRoots (env.follow left) (env.follow right) = .descend args others)
      (within : Meets env args others (true, middle))
      (later : Meets middle lefts rights result) :
      Meets env (left :: lefts) (right :: rights) result
  | fail {env middle left right lefts rights args others}
      (asked : compareRoots (env.follow left) (env.follow right) = .descend args others)
      (within : Meets env args others (false, middle)) :
      Meets env (left :: lefts) (right :: rights) (false, middle)
  | clash {env left right lefts rights}
      (asked : compareRoots (env.follow left) (env.follow right) = .clash) :
      Meets env (left :: lefts) (right :: rights) (false, env)

variable {env : Env} {lefts rights : List Term} {result : Bool × Env}

/-- What two walks ask to bind is unbound, whatever the bindings are. -/
theorem unbound_of_walks {left right first second term : Term} {name : String}
    (walkLeft : env.walk left = some first) (walkRight : env.walk right = some second)
    (asked : compareRoots first second = .bind name term) : env.find? name = none := by
  rcases (bind_of_compareRoots asked).1 with ⟨rfl, -⟩ | ⟨rfl, -⟩
  · exact free_of_walk walkLeft
  · exact free_of_walk walkRight

theorem unbound_of_compareRoots {left right term : Term} {name : String} (acyclic : env.Acyclic)
    (asked : compareRoots (env.follow left) (env.follow right) = .bind name term) :
    env.find? name = none :=
  unbound_of_walks (walk_eq acyclic left) (walk_eq acyclic right) asked

theorem Meets.acyclic (run : Meets env lefts rights result) (acyclic : env.Acyclic) :
    result.2.Acyclic := by
  induction run with
  | nil => exact acyclic
  | agree _ _ ih => exact ih acyclic
  | bind asked apart _ ih => exact ih (acyclic_bind acyclic (unbound_of_compareRoots acyclic asked) apart)
  | cyclic => exact acyclic
  | descend _ _ _ ihWithin ihLater => exact ihLater (ihWithin acyclic)
  | fail _ _ ih => exact ih acyclic
  | clash => exact acyclic

/-! ## What a run binds -/

/-- One binding more at the end, for an unbound variable that is not left in its term. -/
def Binds (env next : Env) : Prop :=
  ∃ name term, env.find? name = none ∧ env.occurs name term = false ∧
    next.toList = env.toList ++ [(name, term)]

theorem Binds.extends {next : Env} (step : env.Binds next) : next.Extends env := by
  obtain ⟨name, term, -, -, whole⟩ := step
  exact ⟨[(name, term)], whole.symm⟩

theorem extends_of_binds {next : Env} (grown : ReflTransGen Binds env next) : next.Extends env := by
  induction grown with
  | refl => exact .refl env
  | tail _ last ih => exact last.extends.trans ih

/-- All that a run does is to make bindings for unbound variables. -/
theorem Meets.binds (run : Meets env lefts rights result) (acyclic : env.Acyclic) :
    ReflTransGen Binds env result.2 := by
  induction run with
  | nil => exact .refl
  | agree _ _ ih => exact ih acyclic
  | bind asked apart _ ih =>
    have unbound := unbound_of_compareRoots acyclic asked
    have later := ih (acyclic_bind acyclic unbound apart)
    exact .head ⟨_, _, unbound, apart, toList_bind unbound _⟩ later
  | cyclic => exact .refl
  | descend _ within _ ihWithin ihLater =>
    exact (ihWithin acyclic).trans (ihLater (within.acyclic acyclic))
  | fail _ _ ih => exact ih acyclic
  | clash => exact .refl

theorem Meets.extends (run : Meets env lefts rights result) (acyclic : env.Acyclic) :
    result.2.Extends env :=
  extends_of_binds (run.binds acyclic)

theorem substitute_ne_of_compareRoots {left right term : Term} {name : String}
    (acyclic : env.Acyclic)
    (asked : compareRoots (env.follow left) (env.follow right) = .bind name term) :
    env.substitute term ≠ .var name := by
  obtain ⟨sides, other⟩ := bind_of_compareRoots asked
  intro same
  cases term with
  | var x =>
    have free : env.find? x = none := by
      rcases sides with ⟨-, root⟩ | ⟨-, root⟩
      · exact follow_free acyclic root
      · exact follow_free acyclic root
    exact other ((substitute_var free).symm.trans same)
  | _ => cases same

/-! ## What bindings inherit -/

def Hereditary (ok : Term → Prop) : Prop :=
  ∀ name args, ok (.compound name args) → ∀ arg ∈ args, ok arg

/-- All bound names, as variables, and all bound terms have a property. -/
def Every (ok : Term → Prop) (env : Env) : Prop :=
  ∀ x term, env.find? x = some term → ok (.var x) ∧ ok term

theorem every_iff {ok : Term → Prop} {env : Env} :
    env.Every ok ↔ ∀ entry ∈ env.toList, ok (.var entry.1) ∧ ok entry.2 := by
  constructor
  · rintro every ⟨x, term⟩ member
    exact every x term (mem_toList_iff.mp member)
  · intro every x term bound
    exact every (x, term) (mem_toList_iff.mpr bound)

theorem every_empty (ok : Term → Prop) : (∅ : Env).Every ok :=
  fun _ _ bound => absurd (mem_toList_iff.mpr bound) List.not_mem_nil

theorem Every.imp {ok other : Term → Prop} {env : Env} (every : env.Every ok)
    (weaker : ∀ term, ok term → other term) : env.Every other :=
  fun x term bound => (every x term bound).imp (weaker _) (weaker _)

instance (ok : Term → Prop) [DecidablePred ok] (env : Env) : Decidable (env.Every ok) :=
  decidable_of_iff _ every_iff.symm

section

variable {ok : Term → Prop}

theorem every_follow (every : env.Every ok) {term : Term} (fine : ok term) :
    ok (env.follow term) := by
  rcases env.follow_origin term with same | ⟨x, y, -, -, bound⟩
  · rwa [same]
  · exact (every y _ bound).2

theorem every_bind {name : String} {term : Term} (every : env.Every ok) (fineName : ok (.var name))
    (fineTerm : ok term) : (env.bind name term).Every ok := by
  intro x bound found
  rw [find?_bind] at found
  by_cases fresh : x = name
  · rw [if_pos fresh, Option.some.injEq] at found
    rw [fresh, ← found]
    exact ⟨fineName, fineTerm⟩
  · rw [if_neg fresh] at found
    exact every x bound found

theorem every_descend {left right : Term} {args others : List Term} (hereditary : Hereditary ok)
    (every : env.Every ok)
    (asked : compareRoots (env.follow left) (env.follow right) = .descend args others)
    (fineLeft : ok left) (fineRight : ok right) :
    (∀ arg ∈ args, ok arg) ∧ ∀ other ∈ others, ok other := by
  obtain ⟨name, rootLeft, rootRight, -⟩ := descend_of_compareRoots asked
  constructor
  · exact hereditary name args (rootLeft ▸ every_follow every fineLeft)
  · exact hereditary name others (rootRight ▸ every_follow every fineRight)

theorem Meets.every (hereditary : Hereditary ok) (run : Meets env lefts rights result)
    (acyclic : env.Acyclic) (every : env.Every ok) (fineLefts : ∀ term ∈ lefts, ok term)
    (fineRights : ∀ term ∈ rights, ok term) : result.2.Every ok := by
  induction run with
  | nil => exact every
  | agree _ _ ih =>
    exact ih acyclic every (List.forall_mem_of_forall_mem_cons fineLefts)
      (List.forall_mem_of_forall_mem_cons fineRights)
  | @bind env left right _ _ _ name term asked apart _ ih =>
    have unbound := unbound_of_compareRoots acyclic asked
    have fineLeft := every_follow every (fineLefts left List.mem_cons_self)
    have fineRight := every_follow every (fineRights right List.mem_cons_self)
    have fine : ok (.var name) ∧ ok term := by
      rcases (bind_of_compareRoots asked).1 with ⟨root, other⟩ | ⟨root, other⟩
      · exact ⟨root ▸ fineLeft, other ▸ fineRight⟩
      · exact ⟨root ▸ fineRight, other ▸ fineLeft⟩
    exact ih (acyclic_bind acyclic unbound apart) (every_bind every fine.1 fine.2)
      (List.forall_mem_of_forall_mem_cons fineLefts)
      (List.forall_mem_of_forall_mem_cons fineRights)
  | cyclic => exact every
  | @descend env _ left right _ _ _ args others asked within _ ihWithin ihLater =>
    obtain ⟨fineArgs, fineOthers⟩ := every_descend hereditary every asked
      (fineLefts left List.mem_cons_self) (fineRights right List.mem_cons_self)
    have inner := ihWithin acyclic every fineArgs fineOthers
    exact ihLater (within.acyclic acyclic) inner (List.forall_mem_of_forall_mem_cons fineLefts)
      (List.forall_mem_of_forall_mem_cons fineRights)
  | @fail env _ left right _ _ args others asked _ ih =>
    obtain ⟨fineArgs, fineOthers⟩ := every_descend hereditary every asked
      (fineLefts left List.mem_cons_self) (fineRights right List.mem_cons_self)
    exact ih acyclic every fineArgs fineOthers
  | clash => exact every

theorem Meets.every_single {left right : Term} {next : Env}
    (run : Meets env [left] [right] (true, next)) (hereditary : Hereditary ok)
    (acyclic : env.Acyclic) (every : env.Every ok) (fineLeft : ok left) (fineRight : ok right) :
    next.Every ok :=
  run.every hereditary acyclic every (List.forall_mem_singleton.mpr fineLeft)
    (List.forall_mem_singleton.mpr fineRight)

end

/-! ## What a run solves -/

theorem solvedBy_bind {value : String → Term} {name : String} {term : Term}
    (unbound : env.find? name = none) :
    (env.bind name term).SolvedBy value ↔ env.SolvedBy value ∧ value name = term.bind value := by
  constructor
  · intro solved
    refine ⟨(extends_bind unbound term).solvedBy solved, solved name term ?_⟩
    rw [find?_bind, if_pos rfl]
  · rintro ⟨solved, added⟩ x bound found
    rw [find?_bind] at found
    by_cases fresh : x = name
    · rw [if_pos fresh, Option.some.injEq] at found
      rw [fresh, ← found, added]
    · rw [if_neg fresh] at found
      exact solved x bound found

theorem bind_eq_iff_of_bind {left right term : Term} {name : String} {value : String → Term}
    (solved : env.SolvedBy value)
    (asked : compareRoots (env.follow left) (env.follow right) = .bind name term) :
    left.bind value = right.bind value ↔ value name = term.bind value := by
  rw [← bind_follow solved left, ← bind_follow solved right]
  rcases (bind_of_compareRoots asked).1 with ⟨root, other⟩ | ⟨root, other⟩
  · rw [root, other]
    exact Iff.rfl
  · rw [root, other]
    exact eq_comm

theorem bind_eq_iff_of_descend {left right : Term} {args others : List Term}
    {value : String → Term} (solved : env.SolvedBy value)
    (asked : compareRoots (env.follow left) (env.follow right) = .descend args others) :
    left.bind value = right.bind value ↔
      args.map (Term.bind value) = others.map (Term.bind value) := by
  obtain ⟨name, rootLeft, rootRight, -⟩ := descend_of_compareRoots asked
  rw [← bind_follow solved left, ← bind_follow solved right, rootLeft, rootRight]
  simp

theorem Meets.solvedBy_iff {next : Env} (run : Meets env lefts rights (true, next))
    (acyclic : env.Acyclic) (value : String → Term) :
    next.SolvedBy value ↔
      env.SolvedBy value ∧ lefts.map (Term.bind value) = rights.map (Term.bind value) := by
  generalize outcome : (true, next) = result at run
  induction run generalizing next with
  | nil =>
    cases outcome
    simp
  | @agree env left right _ _ _ asked _ ih =>
    rw [ih acyclic outcome, List.map_cons, List.map_cons, List.cons.injEq]
    have same : ∀ solved : env.SolvedBy value, left.bind value = right.bind value := by
      intro solved
      rw [← bind_follow solved left, ← bind_follow solved right, eq_of_compareRoots asked]
    exact ⟨fun ⟨solved, rest⟩ => ⟨solved, same solved, rest⟩,
      fun ⟨solved, _, rest⟩ => ⟨solved, rest⟩⟩
  | bind asked apart _ ih =>
    have unbound := unbound_of_compareRoots acyclic asked
    rw [ih (acyclic_bind acyclic unbound apart) outcome, solvedBy_bind unbound, List.map_cons,
      List.map_cons, List.cons.injEq, and_assoc]
    exact and_congr_right fun solved => and_congr_left' (bind_eq_iff_of_bind solved asked).symm
  | cyclic => cases outcome
  | descend asked within _ ihWithin ihLater =>
    rw [ihLater (within.acyclic acyclic) outcome, ihWithin acyclic rfl, List.map_cons,
      List.map_cons, List.cons.injEq, and_assoc]
    exact and_congr_right fun solved => and_congr_left' (bind_eq_iff_of_descend solved asked).symm
  | fail => cases outcome
  | clash => cases outcome

theorem hereditary_isPlain : Hereditary fun term => term.isPlain = true :=
  fun name args plain => (Term.isPlain_compound name args).mp plain

/-- A failed run between plain terms has no solution: a cyclic binding would make a term as large
as its own part. -/
theorem Meets.no_solution {next : Env} (run : Meets env lefts rights (false, next))
    (acyclic : env.Acyclic) (plain : env.Every fun term => term.isPlain = true)
    (plainLefts : ∀ term ∈ lefts, term.isPlain = true)
    (plainRights : ∀ term ∈ rights, term.isPlain = true) {value : String → Term}
    (solved : env.SolvedBy value) :
    lefts.map (Term.bind value) ≠ rights.map (Term.bind value) := by
  generalize outcome : (false, next) = result at run
  induction run generalizing next with
  | nil => cases outcome
  | agree _ _ ih =>
    intro same
    rw [List.map_cons, List.map_cons, List.cons.injEq] at same
    exact ih acyclic plain (List.forall_mem_of_forall_mem_cons plainLefts)
      (List.forall_mem_of_forall_mem_cons plainRights) solved outcome same.2
  | @bind env left right lefts rights _ name term asked apart later ih =>
    intro same
    rw [List.map_cons, List.map_cons, List.cons.injEq] at same
    have unbound := unbound_of_compareRoots acyclic asked
    have step : Meets env [left] [right] (true, env.bind name term) :=
      .bind asked apart (.nil _)
    have plainNext := step.every_single hereditary_isPlain acyclic plain
      (plainLefts left List.mem_cons_self) (plainRights right List.mem_cons_self)
    have solvedNext : (env.bind name term).SolvedBy value :=
      (solvedBy_bind unbound).mpr ⟨solved, (bind_eq_iff_of_bind solved asked).mp same.1⟩
    exact ih (acyclic_bind acyclic unbound apart) plainNext
      (List.forall_mem_of_forall_mem_cons plainLefts)
      (List.forall_mem_of_forall_mem_cons plainRights) solvedNext outcome same.2
  | @cyclic env left right _ _ name term asked inside =>
    intro same
    rw [List.map_cons, List.map_cons, List.cons.injEq] at same
    have equal := (bind_eq_iff_of_bind solved asked).mp same.1
    have unbound := unbound_of_compareRoots acyclic asked
    have occurs := (occurs_iff env name term).mp inside
    -- The check looks through bindings, which a solution cannot tell apart from the term.
    have whole : (env.substitute term).bind value = term.bind value := by
      rw [substitute_eq_bind, Term.bind_bind]
      exact Term.bind_congr fun x _ => bind_value solved x
    exact Term.value_ne_bind occurs (substitute_ne_of_compareRoots acyclic asked)
      (equal.trans whole.symm)
  | @descend env middle left right lefts rights _ args others asked within later _ ihLater =>
    intro same
    rw [List.map_cons, List.map_cons, List.cons.injEq] at same
    have step : Meets env [left] [right] (true, middle) := .descend asked within (.nil _)
    have plainNext := step.every_single hereditary_isPlain acyclic plain
      (plainLefts left List.mem_cons_self) (plainRights right List.mem_cons_self)
    have solvedNext : middle.SolvedBy value :=
      (within.solvedBy_iff acyclic value).mpr
        ⟨solved, (bind_eq_iff_of_descend solved asked).mp same.1⟩
    exact ihLater (within.acyclic acyclic) plainNext
      (List.forall_mem_of_forall_mem_cons plainLefts)
      (List.forall_mem_of_forall_mem_cons plainRights) solvedNext outcome same.2
  | @fail env next left right _ _ args others asked within ih =>
    intro same
    rw [List.map_cons, List.map_cons, List.cons.injEq] at same
    obtain ⟨plainArgs, plainOthers⟩ := every_descend hereditary_isPlain plain asked
      (plainLefts left List.mem_cons_self) (plainRights right List.mem_cons_self)
    exact ih acyclic plain plainArgs plainOthers solved rfl
      ((bind_eq_iff_of_descend solved asked).mp same.1)
  | @clash env left right _ _ asked =>
    intro same
    rw [List.map_cons, List.map_cons, List.cons.injEq] at same
    have plainLeft := every_follow plain (plainLefts left List.mem_cons_self)
    have plainRight := every_follow plain (plainRights right List.mem_cons_self)
    apply bind_ne_of_compareRoots plainLeft plainRight asked value
    rw [bind_follow solved, bind_follow solved, same.1]

end Env

end Backchain
