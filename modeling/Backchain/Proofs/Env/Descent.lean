import Backchain.Proofs.Env.Meets

/-!
The bound on the descent of unification is enough.

On the way down the left side, each level goes from a compound to an argument, or first looks
through a variable. A variable that was looked through leads to everything below it, so in an acyclic
environment it is not met again; this stays true while the environment grows. With all names in a
list and all terms below a height, the levels still needed are therefore at most the names not yet
looked through, times the height, and the size of the term at hand.
-/
set_option autoImplicit false

namespace Backchain

namespace Env

open Relation (ReflTransGen TransGen)

/-- The variables of a term are among some names, and its size is at most a height. -/
def Within (names : List String) (height : Nat) (term : Term) : Prop :=
  term.occurrences ⊆ names ∧ term.size ≤ height

theorem hereditary_within (names : List String) (height : Nat) :
    Hereditary (Within names height) := by
  intro name args whole arg member
  constructor
  · intro x occurs
    exact whole.1 (Term.mem_occurrences_compound member occurs)
  · exact Nat.le_trans (Nat.le_of_lt (Term.size_lt_compound name member)) whole.2

/-- The names looked through on the way to some terms: each leads to all variables of the terms. -/
structure Passed (env : Env) (names passed : List String) (terms : List Term) : Prop where
  once : passed.Nodup
  among : passed ⊆ names
  leads : ∀ term ∈ terms, ∀ x ∈ passed, ∀ y ∈ term.occurrences, TransGen env.Leads x y

/-- The levels are enough for each of some terms after the names that were looked through. -/
def Enough (names passed : List String) (height levels : Nat) (terms : List Term) : Prop :=
  ∀ term ∈ terms, names.length * (height + 1) + term.size ≤ levels + passed.length * (height + 1)

variable {env later : Env} {names passed : List String} {height levels : Nat}

theorem Passed.extended {terms : List Term} (way : env.Passed names passed terms)
    (extends_ : later.Extends env) : later.Passed names passed terms where
  once := way.once
  among := way.among
  leads term member x looked y occurs :=
    (way.leads term member x looked y occurs).lift id fun _ _ leads => extends_.leads leads

theorem Passed.mono {terms others : List Term} (way : env.Passed names passed terms)
    (fewer : others ⊆ terms) : env.Passed names passed others where
  once := way.once
  among := way.among
  leads term member := way.leads term (fewer member)

theorem not_enough_zero {term : Term} {terms : List Term}
    (way : env.Passed names passed (term :: terms)) :
    ¬ Enough names passed height 0 (term :: terms) := by
  intro enough
  have bound := enough term List.mem_cons_self
  have fewer : passed.length ≤ names.length :=
    (List.subperm_of_subset way.once way.among).length_le
  have scaled := Nat.mul_le_mul_right (height + 1) fewer
  have positive := term.size_pos
  omega

/-- One level down, either the term has become smaller or one more name was looked through. -/
theorem passed_descend {left : Term} {name : String} {args : List Term} (acyclic : env.Acyclic)
    (inside : env.Every (Within names height)) (way : env.Passed names passed [left])
    (enough : Enough names passed height (levels + 1) [left])
    (root : env.follow left = .compound name args) :
    ∃ passed, env.Passed names passed args ∧ Enough names passed height levels args := by
  have bound := enough left List.mem_cons_self
  rcases env.follow_origin left with same | ⟨x, y, rfl, path, last⟩
  · obtain rfl : left = .compound name args := same.symm.trans root
    refine ⟨passed, ⟨way.once, way.among, ?_⟩, ?_⟩
    · intro arg member z looked w occurs
      exact way.leads _ List.mem_cons_self z looked w (Term.mem_occurrences_compound member occurs)
    · intro arg member
      have smaller := Term.size_lt_compound name member
      omega
  · rw [root] at last
    have toName : ∀ z ∈ passed, TransGen env.Leads z y := fun z looked =>
      (way.leads _ List.mem_cons_self z looked x (List.mem_singleton.mpr rfl)).trans_left path
    have fromName : ∀ arg ∈ args, ∀ w ∈ arg.occurrences, env.Leads y w := by
      intro arg member w occurs
      exact ⟨_, last, Term.mem_occurrences_compound member occurs⟩
    -- All names looked through so far lead to `y`, so `y` is not among them.
    have fresh : y ∉ passed := fun looked => acyclic y (toName y looked)
    have inName := (inside y _ last).1.1 (List.mem_singleton.mpr rfl)
    refine ⟨y :: passed, ⟨List.nodup_cons.mpr ⟨fresh, way.once⟩, ?_, ?_⟩, ?_⟩
    · exact List.cons_subset.mpr ⟨inName, way.among⟩
    · intro arg member z looked w occurs
      rcases List.mem_cons.mp looked with rfl | before
      · exact .single (fromName arg member w occurs)
      · exact (toName z before).tail (fromName arg member w occurs)
    · intro arg member
      have smaller := Term.size_lt_compound name member
      have low := (inside y _ last).2.2
      simp only [Term.size] at bound
      rw [List.length_cons, Nat.succ_mul]
      omega

theorem meets_cons {descend : Env → List Term → List Term → Bool × Env}
    {each : Env → Term → Term → Bool × Env} {left right : Term} {lefts rights : List Term}
    (acyclic : env.Acyclic) (opened : each env left right = meet descend env left right)
    (within : ∀ args others,
      compareRoots (env.follow left) (env.follow right) = .descend args others →
      Meets env args others (descend env args others))
    (rest : ∀ next, Meets env [left] [right] (true, next) →
      Meets next lefts rights (meetAll each next lefts rights)) :
    Meets env (left :: lefts) (right :: rights)
      (meetAll each env (left :: lefts) (right :: rights)) := by
  rw [meetAll, opened, meet_eq acyclic, meetRoots_eq]
  cases asked : compareRoots (env.follow left) (env.follow right) with
  | agree => exact .agree asked (rest env (.agree asked (.nil env)))
  | bind name term =>
    cases inside : env.occurs name term with
    | true =>
      simp only [assign, inside, if_true]
      exact .cyclic asked inside
    | false =>
      simp only [assign, inside, Bool.false_eq_true, if_false]
      exact .bind asked inside (rest _ (.bind asked inside (.nil _)))
  | descend args others =>
    have run := within args others asked
    simp only
    generalize descend env args others = outcome at run
    obtain ⟨_ | _, next⟩ := outcome
    · exact .fail asked run
    · exact .descend asked run (rest next (.descend asked run (.nil next)))
  | clash => exact .clash asked

theorem meetAll_meets (levels : Nat) {env : Env} {passed : List String} {lefts rights : List Term}
    (acyclic : env.Acyclic) (inside : env.Every (Within names height))
    (insideLefts : ∀ term ∈ lefts, Within names height term)
    (insideRights : ∀ term ∈ rights, Within names height term)
    (lengths : lefts.length = rights.length) (way : env.Passed names passed lefts)
    (enough : Enough names passed height levels lefts) :
    Meets env lefts rights (meetAll (unifyBelow levels) env lefts rights) := by
  -- A level is spent on the way into arguments; the way to the next pair only shortens the lists.
  induction levels generalizing env passed lefts rights with
  | zero =>
    cases lefts with
    | nil =>
      obtain rfl := List.length_eq_zero_iff.mp lengths.symm
      exact .nil env
    | cons left lefts => exact absurd enough (not_enough_zero way)
  | succ levels ih =>
    induction lefts generalizing env rights with
    | nil =>
      obtain rfl := List.length_eq_zero_iff.mp lengths.symm
      exact .nil env
    | cons left lefts rest =>
      cases rights with
      | nil => cases lengths
      | cons right rights =>
        have insideLeft := insideLefts left List.mem_cons_self
        have insideRight := insideRights right List.mem_cons_self
        have wayHead : env.Passed names passed [left] := way.mono (by simp)
        have enoughHead : Enough names passed height (levels + 1) [left] :=
          fun term member => enough term (by simp_all)
        apply meets_cons acyclic rfl
        · intro args others asked
          obtain ⟨name, rootLeft, -, equal⟩ := descend_of_compareRoots asked
          obtain ⟨passed, wayArgs, enoughArgs⟩ :=
            passed_descend acyclic inside wayHead enoughHead rootLeft
          obtain ⟨insideArgs, insideOthers⟩ := every_descend (hereditary_within names height) inside
            asked insideLeft insideRight
          exact ih acyclic inside insideArgs insideOthers equal wayArgs enoughArgs
        · intro next step
          have insideNext := step.every_single (hereditary_within names height) acyclic inside
            insideLeft insideRight
          exact rest (step.acyclic acyclic) insideNext
            (List.forall_mem_of_forall_mem_cons insideLefts)
            (List.forall_mem_of_forall_mem_cons insideRights) (Nat.succ.inj lengths)
            ((way.mono (List.subset_cons_self _ _)).extended (step.extends acyclic))
            fun term member => enough term (List.mem_cons_of_mem _ member)

/-! ## The bound that the program takes -/

/-- All names of an environment and of two lists of terms, with repeats. -/
def namesOf (env : Env) (args others : List Term) : List String :=
  env.toList.flatMap (fun entry => entry.1 :: entry.2.occurrences) ++
    args.flatMap Term.occurrences ++ others.flatMap Term.occurrences

/-- The greatest size that a term of the environment or the lists can have. -/
def heightOf (env : Env) (args others : List Term) : Nat :=
  env.weight + Term.sizeAll args + Term.sizeAll others

theorem length_entries_le (entries : List (String × Term)) :
    (entries.flatMap fun entry => entry.1 :: entry.2.occurrences).length ≤
      weightOf entries := by
  induction entries with
  | nil => simp
  | cons entry entries ih =>
    have head := entry.2.length_occurrences_le
    simp only [List.flatMap_cons, List.length_append, List.length_cons, weightOf, entryWeight]
    omega

theorem entryWeight_le_weightOf {entry : String × Term} {entries : List (String × Term)}
    (member : entry ∈ entries) : entryWeight entry ≤ weightOf entries := by
  induction entries with
  | nil => exact absurd member List.not_mem_nil
  | cons other entries ih =>
    rw [weightOf]
    rcases List.mem_cons.mp member with rfl | later
    · omega
    · have below := ih later
      omega

theorem length_namesOf_le (env : Env) (args others : List Term) :
    (env.namesOf args others).length ≤ env.heightOf args others := by
  have bound := length_entries_le env.toList
  have first := Term.length_flatMap_le fun arg (_ : arg ∈ args) => arg.length_occurrences_le
  have second := Term.length_flatMap_le fun arg (_ : arg ∈ others) => arg.length_occurrences_le
  have total : env.weight = weightOf env.toList := env.weight_eq
  simp only [namesOf, heightOf, List.length_append]
  omega

theorem levels_eq (env : Env) (args others : List Term) :
    env.levels args others = (env.heightOf args others + 1) * (env.heightOf args others + 1) :=
  rfl

theorem within_of_mem_left (env : Env) {args : List Term} (others : List Term) {arg : Term}
    (member : arg ∈ args) :
    Within (env.namesOf args others) (env.heightOf args others) arg := by
  constructor
  · intro x occurs
    have inside := List.mem_flatMap.mpr ⟨arg, member, occurs⟩
    exact List.mem_append_left _ (List.mem_append_right _ inside)
  · have part := Term.size_le_sizeAll member
    unfold heightOf
    omega

theorem within_of_mem_right (env : Env) (args : List Term) {others : List Term} {other : Term}
    (member : other ∈ others) :
    Within (env.namesOf args others) (env.heightOf args others) other := by
  constructor
  · intro x occurs
    exact List.mem_append_right _ (List.mem_flatMap.mpr ⟨other, member, occurs⟩)
  · have part := Term.size_le_sizeAll member
    unfold heightOf
    omega

theorem every_within (env : Env) (args others : List Term) :
    env.Every (Within (env.namesOf args others) (env.heightOf args others)) := by
  intro x term bound
  have member := mem_toList_iff.mpr bound
  have names : ∀ y, y = x ∨ y ∈ term.occurrences → y ∈ env.namesOf args others := by
    intro y inside
    refine List.mem_append_left _ (List.mem_append_left _ ?_)
    exact List.mem_flatMap.mpr ⟨(x, term), member, List.mem_cons.mpr inside⟩
  have part : term.size + 1 ≤ env.weight := by
    rw [env.weight_eq]
    exact entryWeight_le_weightOf member
  refine ⟨⟨?_, ?_⟩, ?_, ?_⟩
  · intro y occurs
    exact names y (.inl (List.mem_singleton.mp occurs))
  · simp only [Term.size, heightOf]
    omega
  · intro y occurs
    exact names y (.inr occurs)
  · unfold heightOf
    omega

/-- The bound of the program is enough for the arguments of two compounds. -/
theorem descend_meets (acyclic : env.Acyclic) {args others : List Term}
    (lengths : args.length = others.length) :
    Meets env args others (meetAll (unifyBelow (env.levels args others)) env args others) := by
  have way : env.Passed (env.namesOf args others) [] args :=
    ⟨List.nodup_nil, List.nil_subset _, fun _ _ _ looked => absurd looked List.not_mem_nil⟩
  refine meetAll_meets _ acyclic (every_within env args others) (fun _ => within_of_mem_left env others)
    (fun _ => within_of_mem_right env args) lengths way ?_
  intro arg member
  have size := (within_of_mem_left env others member).2
  have fewer := length_namesOf_le env args others
  have scaled := Nat.mul_le_mul_right (env.heightOf args others + 1) fewer
  rw [levels_eq, Nat.add_mul _ 1 (env.heightOf args others + 1)]
  simp only [List.length_nil]
  omega

theorem extendAll_meets (acyclic : env.Acyclic) {lefts rights : List Term}
    (lengths : lefts.length = rights.length) :
    Meets env lefts rights (env.extendAll lefts rights) := by
  unfold extendAll
  induction lefts generalizing env rights with
  | nil =>
    obtain rfl := List.length_eq_zero_iff.mp lengths.symm
    exact .nil env
  | cons left lefts ih =>
    cases rights with
    | nil => cases lengths
    | cons right rights =>
      apply meets_cons acyclic rfl
      · intro args others asked
        obtain ⟨_, _, _, equal⟩ := descend_of_compareRoots asked
        exact descend_meets acyclic equal
      · intro next step
        exact ih (step.acyclic acyclic) (Nat.succ.inj lengths)

theorem extendAll_meets_single (acyclic : env.Acyclic) (left right : Term) :
    Meets env [left] [right] (env.extendAll [left] [right]) :=
  extendAll_meets acyclic rfl

end Env

end Backchain
