import Backchain.Answer
import Backchain.Proofs.Env.Insertion
import Backchain.Proofs.Env.Unification

/-!
Looking through bindings without a bound.

The functions `follow`, `substitute`, `occurs` and `render` count the variables that they look
through. Each has a counterpart here that looks through any number of them: it gives nothing when
its fuel runs out, and a recursion ends if some fuel is enough. Under an acyclic environment every
recursion ends, with the result of the counting function, because a bound variable comes after the
variables of its term. Environments stay acyclic, since all that unification ever does to one is to
add bindings for unbound variables that pass the occurs check. For that it has to walk to the root of
a term first: to insert at a bound variable would overwrite its term and could close a circle.
-/
set_option autoImplicit false

namespace Backchain

theorem Term.bareText_bind (shown : String → String) (value : String → Term) (term : Term) :
    (term.bind value).bareText shown = term.bareText fun x => (value x).bareText shown := by
  induction term with
  | compound name args ih =>
    rw [bind_compound, bareText, bareText, bareTexts_eq_map, bareTexts_eq_map, List.map_map]
    congr 3
    exact List.map_congr_left ih
  | conj left right ihLeft ihRight => rw [bind, bareText, bareText, ihLeft, ihRight]
  | _ => rfl

theorem mapM_eq_some_map {α β : Type} {attempt : α → Option β} {result : α → β}
    {items : List α} (each : ∀ item ∈ items, attempt item = some (result item)) :
    items.mapM attempt = some (items.map result) := by
  induction items with
  | nil => rfl
  | cons item items ih =>
    have later := ih fun other member => each other (List.mem_cons_of_mem _ member)
    rw [List.mapM_cons, each item List.mem_cons_self, later]
    rfl

theorem anyM_eq_some_any {α : Type} {attempt : α → Option Bool} {result : α → Bool}
    {items : List α} (each : ∀ item ∈ items, attempt item = some (result item)) :
    items.anyM attempt = some (items.any result) := by
  induction items with
  | nil => rfl
  | cons item items ih =>
    have later := ih fun other member => each other (List.mem_cons_of_mem _ member)
    rw [List.anyM, each item List.mem_cons_self, later, List.any_cons]
    cases result item <;> rfl

/-- With enough fuel, this is the result, and more fuel does not change it. -/
def Ends {α : Type} (attempt : Nat → Option α) (result : α) : Prop :=
  ∃ enough, ∀ fuel, enough ≤ fuel → attempt fuel = some result

namespace Ends

variable {α β : Type} {attempt : Nat → Option α} {result : α}

theorem pure (result : α) : Ends (fun _ => Pure.pure result) result :=
  ⟨0, fun _ _ => rfl⟩

theorem succ (later : Ends (fun fuel => attempt (fuel + 1)) result) : Ends attempt result := by
  obtain ⟨enough, each⟩ := later
  refine ⟨enough + 1, fun fuel above => ?_⟩
  cases fuel with
  | zero => omega
  | succ fuel => exact each fuel (Nat.le_of_succ_le_succ above)

theorem unique {other : α} (ends : Ends attempt result) (again : Ends attempt other) :
    result = other := by
  obtain ⟨enough, each⟩ := ends
  obtain ⟨more, eachAgain⟩ := again
  have here := each (max enough more) (by omega)
  rw [eachAgain (max enough more) (by omega)] at here
  exact (Option.some.inj here).symm

theorem bind {next : Nat → α → Option β} {last : β} (ends : Ends attempt result)
    (later : Ends (fun fuel => next fuel result) last) :
    Ends (fun fuel => attempt fuel >>= next fuel) last := by
  obtain ⟨enough, each⟩ := ends
  obtain ⟨more, eachLater⟩ := later
  refine ⟨max enough more, fun fuel above => ?_⟩
  have first := each fuel (by omega)
  have second := eachLater fuel (by omega)
  simp only [first, Option.bind_eq_bind, Option.bind_some]
  exact second

variable {attempts : Nat → α → Option β} {results : α → β} {items : List α}

theorem all (each : ∀ item ∈ items, Ends (attempts · item) (results item)) :
    ∃ enough, ∀ fuel, enough ≤ fuel → ∀ item ∈ items, attempts fuel item = some (results item) := by
  induction items with
  | nil => exact ⟨0, fun _ _ _ absent => absurd absent List.not_mem_nil⟩
  | cons item items ih =>
    obtain ⟨enough, first⟩ := each item List.mem_cons_self
    obtain ⟨more, later⟩ := ih fun other member => each other (List.mem_cons_of_mem _ member)
    refine ⟨max enough more, fun fuel above => List.forall_mem_cons.mpr ⟨?_, ?_⟩⟩
    · exact first fuel (by omega)
    · exact later fuel (by omega)

theorem mapM (each : ∀ item ∈ items, Ends (attempts · item) (results item)) :
    Ends (fun fuel => items.mapM (attempts fuel)) (items.map results) := by
  obtain ⟨enough, all⟩ := all each
  exact ⟨enough, fun fuel above => mapM_eq_some_map (all fuel above)⟩

theorem anyM {attempts : Nat → α → Option Bool} {results : α → Bool}
    (each : ∀ item ∈ items, Ends (attempts · item) (results item)) :
    Ends (fun fuel => items.anyM (attempts fuel)) (items.any results) := by
  obtain ⟨enough, all⟩ := all each
  exact ⟨enough, fun fuel above => anyM_eq_some_any (all fuel above)⟩

end Ends

namespace Env

open Relation (ReflTransGen TransGen)

/-! ## The recursions -/

/-- Replaces bound variables throughout a term, from its root on. -/
def substitute? (env : Env) : Nat → Term → Option Term
  | 0, _ => none
  | fuel + 1, term => do
    match ← env.follow? fuel term with
    | .compound name args => return .compound name (← args.mapM (substitute? env fuel))
    | .conj left right => return .conj (← substitute? env fuel left) (← substitute? env fuel right)
    | leaf => return leaf

/-- Whether a variable is left in a term; what comes after the first place is not looked at. -/
def occurs? (env : Env) (target : String) : Nat → Term → Option Bool
  | 0, _ => none
  | fuel + 1, term => do
    match ← env.follow? fuel term with
    | .var name => return name == target
    | .compound _ args => args.anyM (occurs? env target fuel)
    | .conj left right => [left, right].anyM (occurs? env target fuel)
    | _ => return false

/-- The bare text of a term with everything bound replaced. -/
def render? (env : Env) : Nat → Term → Option String
  | 0, _ => none
  | fuel + 1, term => do
    match ← env.follow? fuel term with
    | .compound name args =>
      return name ++ "(" ++ ", ".intercalate (← args.mapM (render? env fuel)) ++ ")"
    | .conj left right =>
      return "and(" ++ (← render? env fuel left) ++ ", " ++ (← render? env fuel right) ++ ")"
    | leaf => return leaf.bareText id

variable {env : Env}

/-- Induction along the bindings: a bound variable comes after its term. -/
theorem induct_through {motive : Term → Prop} (acyclic : env.Acyclic)
    (atom : ∀ name, motive (.atom name))
    (number : ∀ value, motive (.number value))
    (string : ∀ text, motive (.string text))
    (free : ∀ name, env.find? name = none → motive (.var name))
    (bound : ∀ name term, env.find? name = some term → motive term → motive (.var name))
    (compound : ∀ name args, (∀ arg ∈ args, motive arg) → motive (.compound name args))
    (conj : ∀ left right, motive left → motive right → motive (.conj left right))
    (term : Term) : motive term := by
  -- Outside, the variables of the term have at most some rank; inside, the term is taken apart.
  have ranked : ∀ rank (term : Term), (∀ x ∈ term.occurrences, env.rank x ≤ rank) →
      motive term := by
    intro rank
    induction rank using Nat.strong_induction_on with
    | h rank lower =>
      intro term low
      induction term with
      | atom name => exact atom name
      | number value => exact number value
      | string text => exact string text
      | var name =>
        cases found : env.find? name with
        | none => exact free name found
        | some term =>
          have top := low name (List.mem_singleton.mpr rfl)
          have positive := rank_pos found
          apply bound name term found
          apply lower (rank - 1) (by omega)
          intro x occurs
          have falls := rank_lt acyclic ⟨term, found, occurs⟩
          omega
      | compound name args ih =>
        exact compound name args fun arg member => ih arg member fun x occurs =>
          low x (Term.mem_occurrences_compound member occurs)
      | conj left right ihLeft ihRight =>
        exact conj left right
          (ihLeft fun x occurs => low x (List.mem_append_left _ occurs))
          (ihRight fun x occurs => low x (List.mem_append_right _ occurs))
  exact ranked env.size term fun x _ => env.rank_le_size x

/-! ## The counting functions satisfy the equations -/

theorem follow_of_free {name : String} (free : env.find? name = none) :
    env.follow (.var name) = .var name := by
  unfold follow
  cases env.size with
  | zero => rfl
  | succ steps => simp only [followBelow, free]

theorem follow_of_not_var (term : Term) (root : ∀ x, term ≠ .var x) : env.follow term = term := by
  unfold follow
  cases env.size with
  | zero => rfl
  | succ steps => rw [followBelow]; exact fun x => root x

theorem followBelow_stable (acyclic : env.Acyclic) (steps : Nat) (term : Term)
    (enough : ∀ x, term = .var x → env.rank x ≤ steps) :
    env.followBelow (steps + 1) term = env.followBelow steps term := by
  induction steps generalizing term with
  | zero =>
    cases term with
    | var x =>
      cases bound : env.find? x with
      | none => simp only [followBelow, bound]
      | some next =>
        have positive := rank_pos bound
        have low := enough x rfl
        omega
    | _ => rfl
  | succ steps ih =>
    cases term with
    | var x =>
      cases bound : env.find? x with
      | none => simp only [followBelow, bound]
      | some next =>
        rw [followBelow, followBelow, bound]
        apply ih
        rintro y rfl
        have falls := rank_lt acyclic ⟨_, bound, List.mem_singleton.mpr rfl⟩
        have low := enough x rfl
        omega
    | _ => rfl

theorem follow_of_bound {name : String} {term : Term} (acyclic : env.Acyclic)
    (bound : env.find? name = some term) : env.follow (.var name) = env.follow term := by
  have stable := followBelow_stable acyclic env.size (.var name) fun x _ => env.rank_le_size x
  rw [follow, ← stable, followBelow, bound, follow]

theorem substitute_of_bound {name : String} {term : Term} (acyclic : env.Acyclic)
    (bound : env.find? name = some term) : env.substitute (.var name) = env.substitute term :=
  value_of_bound acyclic bound

theorem substitute_follow (acyclic : env.Acyclic) (term : Term) :
    env.substitute (env.follow term) = env.substitute term :=
  bind_follow (solvedBy_value acyclic) term

theorem substitute_compound (env : Env) (name : String) (args : List Term) :
    env.substitute (.compound name args) = .compound name (args.map env.substitute) :=
  Term.bind_compound name args env.value

theorem shownBelow_eq (steps : Nat) (name : String) :
    env.shownBelow steps name = (env.valueBelow steps name).bareText id := by
  induction steps generalizing name with
  | zero => rfl
  | succ steps ih =>
    cases bound : env.find? name with
    | none => simp only [shownBelow, valueBelow, bound, Term.bareText, id]
    | some term =>
      simp only [shownBelow, valueBelow, bound, Term.bareText_bind]
      exact congrArg (fun shown => term.bareText shown) (funext ih)

/-- To render a term is to show the text of what it stands for. -/
theorem render_eq (env : Env) (term : Term) :
    env.render term = (env.substitute term).bareText id := by
  rw [render, substitute, Term.bareText_bind]
  exact congrArg (fun shown => term.bareText shown) (funext (shownBelow_eq env.size))

/-! ## The recursions end -/

theorem ends_follow (acyclic : env.Acyclic) (term : Term) :
    Ends (env.follow? · term) (env.follow term) := by
  induction term using induct_through acyclic with
  | free name free =>
    rw [follow_of_free free]
    exact .succ ⟨0, fun fuel _ => by simp only [follow?, free]⟩
  | bound name term bound ih =>
    rw [follow_of_bound acyclic bound]
    apply Ends.succ
    simpa only [follow?, bound] using ih
  | _ =>
    rw [follow_of_not_var _ (by simp)]
    exact .succ ⟨0, fun _ _ => rfl⟩

theorem ends_root (acyclic : env.Acyclic) {term : Term} (root : env.follow term = term) :
    Ends (env.follow? · term) term := by
  have ends := ends_follow acyclic term
  rwa [root] at ends

/-- A recursion that looks at the root first does with a bound variable what it does with its
term. -/
theorem ends_of_bound {α : Type} {attempt : Nat → Term → Option α} {result : α} {name : String}
    {term : Term} (acyclic : env.Acyclic) (bound : env.find? name = some term)
    (rooted : ∀ fuel, env.follow? fuel (.var name) = env.follow? fuel term →
      attempt (fuel + 1) (.var name) = attempt (fuel + 1) term)
    (ends : Ends (attempt · term) result) : Ends (attempt · (.var name)) result := by
  obtain ⟨here, atName⟩ := ends_follow acyclic (.var name)
  obtain ⟨there, atTerm⟩ := ends_follow acyclic term
  obtain ⟨enough, each⟩ := ends
  refine .succ ⟨max enough (max here there), fun fuel above => ?_⟩
  have same : env.follow? fuel (.var name) = env.follow? fuel term := by
    have first := atName fuel (by omega)
    have second := atTerm fuel (by omega)
    rw [follow_of_bound acyclic bound, ← second] at first
    exact first
  have last := each (fuel + 1) (by omega)
  exact (rooted fuel same).trans last

theorem ends_substitute (acyclic : env.Acyclic) (term : Term) :
    Ends (env.substitute? · term) (env.substitute term) := by
  induction term using induct_through acyclic with
  | free name free =>
    rw [substitute_var free]
    exact .succ ((ends_root acyclic (follow_of_free free)).bind (.pure _))
  | bound name term bound ih =>
    rw [substitute_of_bound acyclic bound]
    exact ends_of_bound acyclic bound (fun fuel same => by rw [substitute?, substitute?, same]) ih
  | compound name args ih =>
    have root := ends_root acyclic (follow_of_not_var (.compound name args) (by simp))
    rw [substitute_compound]
    exact .succ (root.bind ((Ends.mapM ih).bind (.pure _)))
  | conj left right ihLeft ihRight =>
    have root := ends_root acyclic (follow_of_not_var (.conj left right) (by simp))
    exact .succ (root.bind (ihLeft.bind (ihRight.bind (.pure _))))
  | _ => exact .succ ((ends_root acyclic (follow_of_not_var _ (by simp))).bind (.pure _))

theorem occurs_of_bound {target name : String} {term : Term} (acyclic : env.Acyclic)
    (bound : env.find? name = some term) :
    env.occurs target (.var name) = env.occurs target term := by
  rw [Bool.eq_iff_iff, occurs_iff, occurs_iff, substitute_of_bound acyclic bound]

theorem ends_occurs (acyclic : env.Acyclic) (target : String) (term : Term) :
    Ends (env.occurs? target · term) (env.occurs target term) := by
  induction term using induct_through acyclic with
  | free name free =>
    have left : env.occurs target (.var name) = (name == target) := by
      rw [Bool.eq_iff_iff, occurs_iff, substitute_var free, Term.occurrences, List.mem_singleton,
        beq_iff_eq]
      exact eq_comm
    rw [left]
    exact .succ ((ends_root acyclic (follow_of_free free)).bind (.pure _))
  | bound name term bound ih =>
    rw [occurs_of_bound acyclic bound]
    exact ends_of_bound acyclic bound (fun fuel same => by rw [occurs?, occurs?, same]) ih
  | compound name args ih =>
    have root := ends_root acyclic (follow_of_not_var (.compound name args) (by simp))
    have same : env.occurs target (.compound name args) = args.any (env.occurs target) := by
      rw [occurs, Term.anyVar, Term.anyVarAmong_eq_any]
      rfl
    rw [same]
    exact .succ (root.bind (Ends.anyM ih))
  | conj left right ihLeft ihRight =>
    have root := ends_root acyclic (follow_of_not_var (.conj left right) (by simp))
    have same : env.occurs target (.conj left right) = [left, right].any (env.occurs target) := by
      simp [occurs, Term.anyVar]
    rw [same]
    exact .succ (root.bind (Ends.anyM (by simp [ihLeft, ihRight])))
  | _ => exact .succ ((ends_root acyclic (follow_of_not_var _ (by simp))).bind (.pure _))

theorem ends_render (acyclic : env.Acyclic) (term : Term) :
    Ends (env.render? · term) (env.render term) := by
  induction term using induct_through acyclic with
  | free name free =>
    have same : env.render (.var name) = name := by
      rw [render_eq, substitute_var free, Term.bareText]
      rfl
    rw [same]
    exact .succ ((ends_root acyclic (follow_of_free free)).bind (.pure _))
  | bound name term bound ih =>
    rw [render_eq, substitute_of_bound acyclic bound, ← render_eq]
    exact ends_of_bound acyclic bound (fun fuel same => by rw [render?, render?, same]) ih
  | compound name args ih =>
    have root := ends_root acyclic (follow_of_not_var (.compound name args) (by simp))
    have same : env.render (.compound name args) =
        name ++ "(" ++ ", ".intercalate (args.map env.render) ++ ")" := by
      rw [render, Term.bareText, Term.bareTexts_eq_map]
      rfl
    rw [same]
    exact .succ (root.bind ((Ends.mapM ih).bind (.pure _)))
  | conj left right ihLeft ihRight =>
    have root := ends_root acyclic (follow_of_not_var (.conj left right) (by simp))
    exact .succ (root.bind (ihLeft.bind (ihRight.bind (.pure _))))
  | _ => exact .succ ((ends_root acyclic (follow_of_not_var _ (by simp))).bind (.pure _))

/-! ## Environments that the operations make -/

/-- A success only makes bindings for unbound variables, and a failure changes nothing. -/
def Keeps (env : Env) (outcome : Bool × Env) : Prop :=
  (outcome.1 = true → ReflTransGen Binds env outcome.2) ∧ (outcome.1 = false → outcome.2 = env)

theorem Meets.keeps {lefts rights : List Term} {result : Bool × Env}
    (run : Meets env lefts rights result) (acyclic : env.Acyclic) :
    env.Keeps (settle env.size result) := by
  have binds := run.binds acyclic
  have back := (run.extends acyclic).undoTo
  obtain ⟨_ | _, next⟩ := result
  · exact ⟨nofun, fun _ => back⟩
  · exact ⟨fun _ => binds, nofun⟩

theorem keeps_unify (acyclic : env.Acyclic) (left right : Term) :
    env.Keeps (env.unify left right) :=
  (extendAll_meets_single acyclic left right).keeps acyclic

theorem keeps_unifyPredicates (acyclic : env.Acyclic) (left right : Predicate) :
    env.Keeps (env.unifyPredicates left right) := by
  unfold unifyPredicates
  split
  · rename_i same
    exact (extendAll_meets acyclic (congrArg Signature.arity same)).keeps acyclic
  · exact ⟨nofun, fun _ => rfl⟩

/-- In every environment that the operations make, each name has one binding and keeps it until it
is dropped: unification comes to a root on every walk and inserts for unbound names only, whatever
insertion makes of bound ones. No name leads back to itself, and every recursion through the bindings
ends. -/
theorem acyclic_and_total (env : Env) (reachable : env.Reachable) :
    (env.toList.map Prod.fst).Nodup ∧
      (∀ left right, env.Keeps (env.unify left right)) ∧
      (∀ left right, env.Keeps (env.unifyPredicates left right)) ∧
      (∀ insert, BindsUnbound insert → ∀ lefts rights,
        env.extendAllBy insert lefts rights = env.extendAll lefts rights) ∧
      (∀ mark, (env.undoTo mark).toList = env.toList.take mark) ∧
      (∀ x, ¬ TransGen env.Leads x x) ∧
      ∀ term, env.walk term = some (env.follow term) ∧
        Ends (env.follow? · term) (env.follow term) ∧
        Ends (env.substitute? · term) (env.substitute term) ∧
        (∀ target, Ends (env.occurs? target · term) (env.occurs target term)) ∧
        Ends (env.render? · term) (env.render term) := by
  have acyclic := reachable.acyclic
  refine ⟨env.nodup_names, keeps_unify acyclic, keeps_unifyPredicates acyclic, ?_,
    toList_undoTo env, acyclic, ?_⟩
  · exact fun insert agrees => extendAllBy_eq agrees env
  · intro term
    exact ⟨walk_eq acyclic term, ends_follow acyclic term, ends_substitute acyclic term,
      fun target => ends_occurs acyclic target term, ends_render acyclic term⟩

/-- A chain of two bindings, between which a cyclic one was refused. -/
def chained : Env :=
  let x := Term.var "X"
  let y := Term.var "Y"
  let first := ((∅ : Env).unify x (.compound "f" [y, .var "Z"])).2
  let refused := (first.unify y (.compound "g" [x])).2
  (refused.unify (.atom "a") y).2

theorem reachable_chained : chained.Reachable :=
  .unify (.unify (.unify .empty _ _) _ _) _ _

/-- An insertion that would drop everything at a bound name. -/
def insertOrReset (env : Env) (name : String) (term : Term) : Env :=
  if env.contains name then ∅ else env.bind name term

theorem bindsUnbound_insertOrReset : BindsUnbound insertOrReset := by
  intro env name term unbound
  rw [insertOrReset, contains, unbound]
  rfl

theorem acyclic_and_total_chained :
    let f := Term.compound "f" [.atom "a", .atom "z"]
    (chained.extendAllBy insertOrReset [.var "X"] [f]).2.toList =
        chained.toList ++ [("Z", .atom "z")] ∧
      ¬ TransGen chained.Leads "X" "X" ∧
      chained.walk (.var "Y") = some (.atom "a") ∧
      Ends (chained.substitute? · (.var "X")) (.compound "f" [.atom "a", .var "Z"]) ∧
      Ends (chained.render? · (.var "X")) "f(a, Z)" := by
  intro f
  obtain ⟨-, -, -, inserted, -, acyclic, total⟩ := acyclic_and_total chained reachable_chained
  obtain ⟨-, -, substituted, -, rendered⟩ := total (.var "X")
  have term : chained.substitute (.var "X") = .compound "f" [.atom "a", .var "Z"] := rfl
  have text : chained.render (.var "X") = "f(a, Z)" := rfl
  rw [term] at substituted
  rw [text] at rendered
  refine ⟨?_, acyclic "X", (total (.var "Y")).1, substituted, rendered⟩
  rw [inserted insertOrReset bindsUnbound_insertOrReset]
  rfl

end Env

end Backchain
