import Backchain.Proofs.Env.Meets

/-!
Environments under other names.

An environment renames another if it has the same bindings in the same order, under other names.
Nothing that unification does looks at more of a name than whether it is the same as another one. So as
long as different names stay different, following, checking for occurrences and binding do the same
under other names, and so does unification: it compares roots that are renamed, and it counts terms of
the same size.
-/
set_option autoImplicit false

namespace Backchain

variable {names : String → String}

/-! ## Terms -/

namespace Term

section

variable (names : String → String)

theorem rename_var (x : String) : (Term.var x).rename names = .var (names x) :=
  rfl

theorem rename_compound (name : String) (args : List Term) :
    (Term.compound name args).rename names = .compound name (args.map (rename names)) :=
  bind_compound name args _

theorem rename_conj (left right : Term) :
    (Term.conj left right).rename names = .conj (left.rename names) (right.rename names) :=
  rfl

theorem rename_leaf {term : Term} (ground : term.occurrences = []) : term.rename names = term := by
  have same : term.rename names = term.bind .var :=
    bind_congr fun x occurs => absurd (ground ▸ occurs) List.not_mem_nil
  rw [same, bind_var]

end

theorem rename_id : rename id = id :=
  funext bind_var

theorem rename_rename (term : Term) (first second : String → String) :
    (term.rename first).rename second = term.rename (second ∘ first) :=
  bind_rename term first _

theorem rename_congr {term : Term} {first second : String → String}
    (agree : ∀ x ∈ term.occurrences, first x = second x) :
    term.rename first = term.rename second :=
  bind_congr fun x occurs => congrArg Term.var (agree x occurs)

theorem sizeAll_congr {args : List Term} {change : Term → Term}
    (each : ∀ arg ∈ args, (change arg).size = arg.size) :
    sizeAll (args.map change) = sizeAll args := by
  induction args with
  | nil => rfl
  | cons arg args ih =>
    rw [List.forall_mem_cons] at each
    rw [List.map_cons, sizeAll, sizeAll, each.1, ih each.2]

theorem size_rename (names : String → String) (term : Term) :
    (term.rename names).size = term.size := by
  induction term with
  | compound name args ih => rw [rename_compound, size, size, sizeAll_congr ih]
  | conj left right ihLeft ihRight =>
    rw [rename, bind, size, size, ← rename, ← rename, ihLeft, ihRight]
  | _ => rfl

theorem sizeAll_rename (names : String → String) (args : List Term) :
    sizeAll (args.map (rename names)) = sizeAll args :=
  sizeAll_congr fun arg _ => size_rename names arg

theorem anyVar_rename (names : String → String) (test : String → Bool) (term : Term) :
    (term.rename names).anyVar test = term.anyVar fun x => test (names x) := by
  rw [anyVar_eq_any, anyVar_eq_any, occurrences_rename, List.any_map]
  rfl

end Term

namespace Predicate

theorem rename_congr {p : Predicate} {first second : String → String}
    (agree : ∀ x ∈ p.occurrences, first x = second x) : p.rename first = p.rename second := by
  unfold rename
  congr 1
  apply List.map_congr_left
  intro arg member
  exact Term.rename_congr fun x occurs => agree x (occurrences_subset member occurs)

theorem rename_rename (p : Predicate) (first second : String → String) :
    (p.rename first).rename second = p.rename (second ∘ first) := by
  simp [rename, Term.rename_rename]

theorem rename_id : rename id = id := by
  funext p
  rw [rename, Term.rename_id, List.map_id, id]

end Predicate

namespace Env

/-! ## Looking up -/

/-- The other environment has the same bindings in the same order, under other names. -/
def Renames (names : String → String) (env other : Env) : Prop :=
  other.toList = env.toList.map fun entry => (names entry.1, entry.2.rename names)

instance (names : String → String) (env other : Env) : Decidable (Renames names env other) :=
  inferInstanceAs (Decidable (_ = _))

theorem Renames.refl (env : Env) : env.Renames id env := by
  simp [Renames, Term.rename_id]

theorem lookup_rename (apart : Function.Injective names) (entries : List (String × Term))
    (x : String) :
    (entries.map fun entry => (names entry.1, entry.2.rename names)).lookup (names x) =
      (entries.lookup x).map (Term.rename names) := by
  induction entries with
  | nil => rfl
  | cons entry entries ih =>
    obtain ⟨y, term⟩ := entry
    rw [List.map_cons, lookup_cons_eq, lookup_cons_eq, ih]
    by_cases same : x = y
    · rw [if_pos same, if_pos (congrArg names same), Option.map_some]
    · rw [if_neg same, if_neg (apart.ne same)]

theorem weightOf_rename (names : String → String) (entries : List (String × Term)) :
    weightOf (entries.map fun entry => (names entry.1, entry.2.rename names)) =
      weightOf entries := by
  induction entries with
  | nil => rfl
  | cons entry entries ih =>
    rw [List.map_cons, weightOf, weightOf, ih, entryWeight, entryWeight, Term.size_rename]

variable {env other : Env}

theorem Renames.find? (renames : Renames names env other) (apart : Function.Injective names)
    (x : String) : other.find? (names x) = (env.find? x).map (Term.rename names) := by
  rw [find?_eq_lookup, renames, lookup_rename apart, find?_eq_lookup]

theorem Renames.size (renames : Renames names env other) : other.size = env.size := by
  rw [← length_toList, renames, List.length_map, length_toList]

theorem Renames.weight (renames : Renames names env other) : other.weight = env.weight := by
  have same : other.entries.toList = _ := renames
  rw [other.weight_eq, same, weightOf_rename, env.weight_eq]
  rfl

theorem Renames.congr {first second : String → String} (renames : Renames first env other)
    (agree : env.Every fun term => ∀ x ∈ term.occurrences, first x = second x) :
    Renames second env other := by
  rw [Renames, renames]
  apply List.map_congr_left
  rintro ⟨x, term⟩ member
  obtain ⟨onName, onTerm⟩ := agree x term (mem_toList_iff.mp member)
  rw [onName x (List.mem_singleton.mpr rfl), Term.rename_congr onTerm]

theorem Renames.follow? (renames : Renames names env other) (apart : Function.Injective names)
    (fuel : Nat) (term : Term) :
    other.follow? fuel (term.rename names) = (env.follow? fuel term).map (Term.rename names) := by
  induction fuel generalizing term with
  | zero => rfl
  | succ fuel ih =>
    cases term with
    | var x =>
      have looked := renames.find? apart x
      cases bound : env.find? x with
      | none =>
        rw [bound] at looked
        simp [Env.follow?, Term.rename, Term.bind, bound, looked]
      | some next =>
        rw [bound] at looked
        simpa [Env.follow?, Term.rename, Term.bind, bound, looked] using ih next
    | compound name args =>
      rw [Term.rename_compound, Env.follow?, Env.follow?, Option.map_some, Term.rename_compound] <;>
        simp
    | _ => rfl

theorem Renames.walk (renames : Renames names env other) (apart : Function.Injective names)
    (term : Term) : other.walk (term.rename names) = (env.walk term).map (Term.rename names) := by
  rw [Env.walk, renames.size]
  exact renames.follow? apart (env.size + 1) term

theorem Renames.leadsBelow (renames : Renames names env other)
    (apart : Function.Injective names) (target : String) (steps : Nat) (x : String) :
    other.leadsBelow (names target) steps (names x) = env.leadsBelow target steps x := by
  have same : ∀ x, (names x == names target) = (x == target) := fun x => by
    rw [Bool.eq_iff_iff, beq_iff_eq, beq_iff_eq, apart.eq_iff]
  induction steps generalizing x with
  | zero => exact same x
  | succ steps ih =>
    have looked := renames.find? apart x
    cases bound : env.find? x with
    | none =>
      rw [bound] at looked
      simpa [Env.leadsBelow, bound, looked] using same x
    | some next =>
      rw [bound] at looked
      simp [Env.leadsBelow, bound, looked, Term.anyVar_rename, ih]

theorem Renames.occurs (renames : Renames names env other) (apart : Function.Injective names)
    (x : String) (term : Term) :
    other.occurs (names x) (term.rename names) = env.occurs x term := by
  rw [Env.occurs, renames.size, Term.anyVar_rename, Env.occurs]
  simp only [renames.leadsBelow apart x env.size]

theorem overwrite_rename (apart : Function.Injective names) (x : String) (term : Term)
    (entry : String × Term) :
    overwrite (names x) (term.rename names) (names entry.1, entry.2.rename names) =
      (names (overwrite x term entry).1, (overwrite x term entry).2.rename names) := by
  unfold overwrite
  by_cases same : entry.1 = x
  · rw [if_pos same, if_pos (congrArg names same)]
  · rw [if_neg same, if_neg (apart.ne same)]

theorem Renames.bind (renames : Renames names env other) (apart : Function.Injective names)
    (x : String) (term : Term) :
    Renames names (env.bind x term) (other.bind (names x) (term.rename names)) := by
  have looked := renames.find? apart x
  by_cases unbound : env.find? x = none
  · rw [unbound, Option.map_none] at looked
    rw [Renames, toList_bind unbound, toList_bind looked, renames, List.map_append]
    rfl
  · have bound : other.find? (names x) ≠ none := by simpa [looked] using unbound
    rw [Renames, toList_bind_of_bound unbound, toList_bind_of_bound bound, renames, List.map_map,
      List.map_map]
    exact List.map_congr_left fun entry _ => overwrite_rename apart x term entry

theorem Renames.undoTo (renames : Renames names env other) (mark : Nat) :
    Renames names (env.undoTo mark) (other.undoTo mark) := by
  rw [Renames, toList_undoTo, toList_undoTo, renames, List.map_take]

/-! ## Unification -/

/-- What the roots of renamed terms ask for. -/
def Comparison.rename (names : String → String) : Comparison → Comparison
  | .agree => .agree
  | .bind name term => .bind (names name) (term.rename names)
  | .descend args others => .descend (args.map (Term.rename names)) (others.map (Term.rename names))
  | .clash => .clash

theorem compareRoots_rename (apart : Function.Injective names) (left right : Term) :
    compareRoots (left.rename names) (right.rename names) =
      (compareRoots left right).rename names := by
  cases left <;> cases right <;>
    grind [compareRoots, Comparison.rename, Term.rename_var, Term.rename_compound,
      Term.rename_conj, Term.rename_leaf, Term.occurrences, List.length_map, Function.Injective]

/-- The other outcome is the same under other names. -/
inductive RenamesOutcome (names : String → String) : Bool × Env → Bool × Env → Prop where
  | same {env other : Env} (success : Bool) (renames : Renames names env other) :
      RenamesOutcome names (success, env) (success, other)

theorem Renames.assign (renames : Renames names env other) (apart : Function.Injective names)
    (x : String) (term : Term) :
    RenamesOutcome names (env.assign x term) (other.assign (names x) (term.rename names)) := by
  rw [Env.assign, Env.assign, renames.occurs apart]
  split
  · exact .same false renames
  · exact .same true (renames.bind apart x term)

theorem Renames.meetRoots {descend descendOther : Env → List Term → List Term → Bool × Env}
    (renames : Renames names env other) (apart : Function.Injective names)
    (below : ∀ args others, RenamesOutcome names (descend env args others)
      (descendOther other (args.map (Term.rename names)) (others.map (Term.rename names))))
    (left right : Term) :
    RenamesOutcome names (Env.meetRoots descend env left right)
      (Env.meetRoots descendOther other (left.rename names) (right.rename names)) := by
  rw [meetRoots_eq, meetRoots_eq, compareRoots_rename apart]
  cases compareRoots left right with
  | agree => exact .same true renames
  | bind x term => exact renames.assign apart x term
  | descend args others => exact below args others
  | clash => exact .same false renames

theorem Renames.meet {descend descendOther : Env → List Term → List Term → Bool × Env}
    (renames : Renames names env other) (apart : Function.Injective names)
    (below : ∀ args others, RenamesOutcome names (descend env args others)
      (descendOther other (args.map (Term.rename names)) (others.map (Term.rename names))))
    (left right : Term) :
    RenamesOutcome names (Env.meet descend env left right)
      (Env.meet descendOther other (left.rename names) (right.rename names)) := by
  rw [Env.meet, Env.meet, renames.walk apart, renames.walk apart]
  cases env.walk left with
  | none => exact .same false renames
  | some first =>
    cases env.walk right with
    | none => exact .same false renames
    | some second => exact renames.meetRoots apart below first second

theorem Renames.meetAll {meet meetOther : Env → Term → Term → Bool × Env}
    (each : ∀ env other, Renames names env other → ∀ left right,
      RenamesOutcome names (meet env left right)
        (meetOther other (left.rename names) (right.rename names)))
    (renames : Renames names env other) (lefts rights : List Term) :
    RenamesOutcome names (Env.meetAll meet env lefts rights)
      (Env.meetAll meetOther other (lefts.map (Term.rename names))
        (rights.map (Term.rename names))) := by
  induction lefts generalizing env other rights with
  | nil => exact .same true renames
  | cons left lefts ih =>
    cases rights with
    | nil => exact .same true renames
    | cons right rights =>
      have first := each env other renames left right
      rw [List.map_cons, List.map_cons, Env.meetAll, Env.meetAll]
      generalize meet env left right = outcome at first
      generalize meetOther other _ _ = outcomeOther at first
      cases first with
      | same success extended =>
        cases success with
        | false => exact .same false extended
        | true => exact ih extended rights

theorem Renames.unifyBelow (apart : Function.Injective names) (levels : Nat) (env other : Env)
    (renames : Renames names env other) (left right : Term) :
    RenamesOutcome names (Env.unifyBelow levels env left right)
      (Env.unifyBelow levels other (left.rename names) (right.rename names)) := by
  induction levels generalizing env other left right with
  | zero => exact .same false renames
  | succ levels ih =>
    apply renames.meet apart
    exact fun args others => renames.meetAll ih args others

theorem Renames.extendAll (renames : Renames names env other) (apart : Function.Injective names)
    (lefts rights : List Term) :
    RenamesOutcome names (env.extendAll lefts rights)
      (other.extendAll (lefts.map (Term.rename names)) (rights.map (Term.rename names))) := by
  apply renames.meetAll
  intro env other renames left right
  apply renames.meet apart
  intro args others
  have levels : other.levels (args.map (Term.rename names)) (others.map (Term.rename names)) =
      env.levels args others := by
    rw [Env.levels, Env.levels, renames.weight, Term.sizeAll_rename, Term.sizeAll_rename]
  rw [levels]
  exact renames.meetAll (Renames.unifyBelow apart _) args others

/-- Unification does the same under other names. -/
theorem Renames.unifyPredicates (renames : Renames names env other)
    (apart : Function.Injective names) (left right : Predicate) :
    RenamesOutcome names (env.unifyPredicates left right)
      (other.unifyPredicates (left.rename names) (right.rename names)) := by
  have outcome := renames.extendAll apart left.args right.args
  simp only [Env.unifyPredicates, Predicate.signature_rename]
  split
  · rw [Predicate.rename, Predicate.rename, renames.size]
    generalize env.extendAll left.args right.args = result at outcome
    generalize other.extendAll _ _ = resultOther at outcome
    cases outcome with
    | same success extended =>
      cases success with
      | false => exact .same false (extended.undoTo env.size)
      | true => exact .same true extended
  · exact .same false renames

theorem Renames.unifiedPredicates (renames : Renames names env other)
    (apart : Function.Injective names) (left right : Predicate) :
    Option.Rel (Renames names) (env.unifiedPredicates? left right)
      (other.unifiedPredicates? (left.rename names) (right.rename names)) := by
  have outcome := renames.unifyPredicates apart left right
  unfold unifiedPredicates?
  generalize env.unifyPredicates left right = result at outcome
  generalize other.unifyPredicates _ _ = resultOther at outcome
  cases outcome with
  | same success extended =>
    cases success with
    | false => exact .none
    | true => exact .some extended

end Env

end Backchain
