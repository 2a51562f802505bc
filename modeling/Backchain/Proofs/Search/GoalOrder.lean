import Mathlib.Data.List.Perm.Basic
import Backchain.Proofs.Search.Enumeration
import Backchain.Proofs.Term.Variants

/-!
The order of the goals does not change the answers.

Searches for the same goals in another order go through the same derivations: a skeleton for one order
is a skeleton for the other with its parts put in that order. So each of them finds one environment for
each skeleton of the other. Both environments are most general for the same derivations, up to the
numbers of the copies, so what they say about the goals is the same up to the names of variables.
-/
set_option autoImplicit false

namespace Backchain

variable {database : Database} {goals shuffled : List Predicate} {env : Env} {copies number : Nat}

/-! ## Skeletons in another order -/

/-- Turns skeletons for some goals into skeletons for others, which derive the same instances of them,
and can be taken back by `back`. -/
def Shuffles (database : Database) (goals shuffled : List Predicate)
    (there back : Skeleton → Skeleton) : Prop :=
  ∀ (value : String → Term) (skeleton : Skeleton),
    Derives database value skeleton (goals.map fun goal => goal.bind value) →
      Derives database value (there skeleton) (shuffled.map fun goal => goal.bind value) ∧
        back (there skeleton) = skeleton

namespace Skeleton

/-- Changes what comes after the first clause. -/
def onRest (change : Skeleton → Skeleton) (skeleton : Skeleton) : Skeleton :=
  (skeleton.take 1).append (change (skeleton.drop 1))

/-- Puts the second clause first. -/
def swap (skeleton : Skeleton) : Skeleton :=
  let rest := skeleton.drop 1
  (rest.take 1).append ((skeleton.take 1).append (rest.drop 1))

end Skeleton

theorem Derives.splitOne {value : String → Term} {skeleton : Skeleton} {instance_ : Predicate}
    {instances : List Predicate} (derives : Derives database value skeleton (instance_ :: instances)) :
    Derives database value (skeleton.take 1) [instance_] ∧
      Derives database value (skeleton.drop 1) instances := by
  have split := @Derives.split _ _ _ [instance_] instances derives
  exact split

theorem Derives.take_drop_append {value : String → Term} {first : Skeleton}
    {instance_ : Predicate} (derives : Derives database value first [instance_])
    (last : Skeleton) :
    (first.append last).take 1 = first ∧ (first.append last).drop 1 = last :=
  derives.fits.take_drop_append last

theorem Shuffles.refl (goals : List Predicate) : Shuffles database goals goals id id :=
  fun _ _ derives => ⟨derives, rfl⟩

theorem Shuffles.cons {there back : Skeleton → Skeleton}
    (shuffles : Shuffles database goals shuffled there back) (goal : Predicate) :
    Shuffles database (goal :: goals) (goal :: shuffled) (Skeleton.onRest there)
      (Skeleton.onRest back) := by
  intro value skeleton derives
  obtain ⟨first, rest⟩ := Derives.splitOne derives
  obtain ⟨later, undone⟩ := shuffles value _ rest
  refine ⟨first.append later, ?_⟩
  obtain ⟨taken, dropped⟩ := first.take_drop_append (there (skeleton.drop 1))
  rw [Skeleton.onRest, Skeleton.onRest, taken, dropped, undone, Skeleton.take_append_drop]

theorem Shuffles.swap (first second : Predicate) (goals : List Predicate) :
    Shuffles database (first :: second :: goals) (second :: first :: goals) Skeleton.swap
      Skeleton.swap := by
  intro value skeleton derives
  obtain ⟨one, rest⟩ := Derives.splitOne derives
  obtain ⟨two, last⟩ := Derives.splitOne rest
  refine ⟨two.append (one.append last), ?_⟩
  obtain ⟨secondTaken, secondDropped⟩ := two.take_drop_append
    ((skeleton.take 1).append ((skeleton.drop 1).drop 1))
  obtain ⟨firstTaken, firstDropped⟩ := one.take_drop_append ((skeleton.drop 1).drop 1)
  simp only [Skeleton.swap, secondTaken, secondDropped, firstTaken, firstDropped,
    Skeleton.take_append_drop]

theorem Shuffles.trans {others : List Predicate} {there back further undo : Skeleton → Skeleton}
    (first : Shuffles database goals shuffled there back)
    (second : Shuffles database shuffled others further undo) :
    Shuffles database goals others (further ∘ there) (back ∘ undo) := by
  intro value skeleton derives
  obtain ⟨arranged, undone⟩ := first value skeleton derives
  obtain ⟨again, undoneAgain⟩ := second value _ arranged
  refine ⟨again, ?_⟩
  rw [Function.comp_apply, Function.comp_apply, undoneAgain, undone]

/-- Whatever the order, there is a skeleton for each skeleton. -/
theorem exists_shuffles (database : Database) (perm : goals.Perm shuffled) :
    ∃ there back, Shuffles database goals shuffled there back ∧
      Shuffles database shuffled goals back there := by
  induction perm with
  | nil => exact ⟨id, id, .refl [], .refl []⟩
  | cons goal _ ih =>
    obtain ⟨there, back, forth, converse⟩ := ih
    exact ⟨_, _, forth.cons goal, converse.cons goal⟩
  | swap first second goals => exact ⟨_, _, .swap second first goals, .swap first second goals⟩
  | trans _ _ ih ihNext =>
    obtain ⟨there, back, forth, converse⟩ := ih
    obtain ⟨further, undo, forthNext, converseNext⟩ := ihNext
    exact ⟨_, _, forth.trans forthNext, converseNext.trans converse⟩

/-! ## What is found for a skeleton and its arrangement -/

theorem Found.derives {skeleton : Skeleton} {answer : Env}
    (found : Found database env goals copies skeleton answer) :
    env.SolvedBy answer.value ∧
      Derives database answer.value skeleton (goals.map fun goal => goal.bind answer.value) := by
  obtain ⟨number, -, -, solutions⟩ := found.numbered
  obtain ⟨solved, solves⟩ := (solutions _).mp (Env.solvedBy_value found.acyclic)
  exact ⟨solved, derives_of_solves found.fits solves⟩

/-- Whatever derives the skeleton that an environment was found for, is an instance of what the
environment says about the goals. -/
theorem Found.exists_instance {skeleton : Skeleton} {answer : Env} {value : String → Term}
    (found : Found database env goals copies skeleton answer)
    (facts : ∀ fact ∈ database.facts, fact.IsBelow 0) (ready : Ready env goals 0)
    (solved : env.SolvedBy value)
    (derives : Derives database value skeleton (goals.map fun goal => goal.bind value)) :
    ∃ further, ∀ goal ∈ goals,
      goal.toTerm.bind value = (goal.toTerm.bind answer.value).bind further := by
  obtain ⟨number, increasing, above, solutions⟩ := found.numbered
  have fresh : ∀ i, 0 < number i := fun i =>
    Nat.lt_of_lt_of_le (Nat.zero_lt_of_lt above) (increasing.monotone (Nat.zero_le i))
  obtain ⟨other, agrees, solves⟩ := exists_agreeing_solution facts ready.below ready.belowEnv
    (fun i j same => increasing.injective same) fresh solved derives
  obtain ⟨solvedOther, solvesOther⟩ := solves_append.mp solves
  have within := (solutions other).mpr ⟨solves_equations.mp solvedOther, solvesOther⟩
  refine ⟨other, ?_⟩
  intro goal member
  rw [Term.bind_bind]
  apply Term.bind_congr
  intro x occurs
  rw [Predicate.toTerm, Term.occurrences_compound] at occurs
  rw [Env.bind_value within x, agrees x ((ready.below goal member).occurrences x occurs)]

/-- What two environments say about the goals is the same up to a renaming. -/
def Alike (goals : List Predicate) (answer other : Env) : Prop :=
  ∃ naming : Equiv.Perm String, ∀ goal ∈ goals,
    other.substitute goal.toTerm = (answer.substitute goal.toTerm).rename naming

theorem Alike.of_instances {answer other : Env} {there back : String → Term}
    (forth : ∀ goal ∈ goals,
      goal.toTerm.bind other.value = (goal.toTerm.bind answer.value).bind there)
    (converse : ∀ goal ∈ goals,
      goal.toTerm.bind answer.value = (goal.toTerm.bind other.value).bind back) :
    Alike goals answer other := by
  -- One renaming has to serve all goals, so they are put into one term.
  let tuple (env : Env) : Term := .compound "" (goals.map fun goal => env.substitute goal.toTerm)
  have there : tuple other = (tuple answer).bind there := by
    simpa [tuple, Env.substitute_eq_bind] using forth
  have back : tuple answer = (tuple other).bind back := by
    simpa [tuple, Env.substitute_eq_bind] using converse
  obtain ⟨naming, same⟩ := Term.exists_renaming_of_instances there back
  refine ⟨naming, ?_⟩
  simpa [tuple, Term.rename] using same

theorem Found.alike {skeleton : Skeleton} {answer other : Env} {there back : Skeleton → Skeleton}
    (found : Found database env goals copies skeleton answer)
    (foundOther : Found database env shuffled number (there skeleton) other)
    (forth : Shuffles database goals shuffled there back)
    (converse : Shuffles database shuffled goals back there) (perm : goals.Perm shuffled)
    (facts : ∀ fact ∈ database.facts, fact.IsBelow 0) (ready : Ready env goals 0)
    (readyOther : Ready env shuffled 0) : Alike goals answer other := by
  obtain ⟨solved, derives⟩ := found.derives
  obtain ⟨solvedOther, derivesOther⟩ := foundOther.derives
  obtain ⟨arranged, undone⟩ := forth answer.value skeleton derives
  have returned := (converse other.value _ derivesOther).1
  rw [undone] at returned
  obtain ⟨back, instances⟩ := foundOther.exists_instance facts readyOther solved arranged
  obtain ⟨there, others⟩ := found.exists_instance facts ready solvedOther returned
  exact .of_instances others fun goal member => instances goal (perm.subset member)

/-! ## Searches that come to their full end -/

theorem forall₂_of_common {α β γ : Type} {left : α → β → Prop} {right : α → γ → Prop}
    {joined : β → γ → Prop} (join : ∀ a b c, left a b → right a c → joined b c) {as : List α}
    {bs : List β} {cs : List γ} (lefts : List.Forall₂ left as bs)
    (rights : List.Forall₂ right as cs) : List.Forall₂ joined bs cs := by
  induction lefts generalizing cs with
  | nil =>
    cases rights
    exact .nil
  | cons first _ ih =>
    cases rights with
    | cons second others => exact .cons (join _ _ _ first second) (ih others)

theorem Enumerates.nodup {scope : Skeleton → Prop} {skeletons : List Skeleton} {answers : List Env}
    (enumerates : Enumerates database scope env goals copies skeletons answers) :
    skeletons.Nodup := by
  refine enumerates.sorted.imp ?_
  rintro skeleton _ before rfl
  exact Skeleton.not_before_self skeleton before

theorem Enumerates.perm_map {skeletons arranged : List Skeleton} {answers others : List Env}
    {there back : Skeleton → Skeleton}
    (enumerates : Enumerates database (fun _ => True) env goals copies skeletons answers)
    (enumeratesOther : Enumerates database (fun _ => True) env shuffled number arranged others)
    (forth : Shuffles database goals shuffled there back)
    (converse : Shuffles database shuffled goals back there) :
    (skeletons.map there).Perm arranged := by
  have undone : ∀ skeleton ∈ skeletons, there skeleton ∈ arranged ∧
      back (there skeleton) = skeleton := by
    intro skeleton member
    obtain ⟨answer, found⟩ := enumerates.exists_found member
    obtain ⟨solved, derives⟩ := found.derives
    obtain ⟨derived, same⟩ := forth answer.value skeleton derives
    exact ⟨enumeratesOther.complete _ answer.value trivial solved derived, same⟩
  have reached : ∀ skeleton ∈ arranged, back skeleton ∈ skeletons ∧
      there (back skeleton) = skeleton := by
    intro skeleton member
    obtain ⟨other, found⟩ := enumeratesOther.exists_found member
    obtain ⟨solved, derives⟩ := found.derives
    obtain ⟨derived, same⟩ := converse other.value skeleton derives
    exact ⟨enumerates.complete _ other.value trivial solved derived, same⟩
  have apart : (skeletons.map there).Nodup := by
    apply List.Nodup.map_on _ enumerates.nodup
    intro first member second memberSecond same
    rw [← (undone first member).2, same, (undone second memberSecond).2]
  rw [List.perm_ext_iff_of_nodup apart enumeratesOther.nodup]
  intro skeleton
  rw [List.mem_map]
  constructor
  · rintro ⟨origin, member, rfl⟩
    exact (undone origin member).1
  · intro member
    exact ⟨back skeleton, reached skeleton member⟩

/-- Two searches that come to their full end for the same goals, one in some order and one in another,
find the same number of environments, which can be paired so that both of a pair say the same about all
goals together, up to a renaming. -/
theorem all_of_perm (s : Search) (limits : Limits) (number : Nat) (goals shuffled : List Predicate)
    (env : Env) (envs others : List Env) (perm : goals.Perm shuffled) (built : s.database.Built)
    (reachable : env.Reachable) (plainClauses : s.database.Every Predicate.IsPlain)
    (plainEnv : env.Every fun term => term.isPlain = true)
    (plainGoals : ∀ goal ∈ goals, goal.IsPlain)
    (unmarkedClauses : s.database.Every Predicate.IsUnmarked)
    (unmarkedEnv : env.Every Term.IsUnmarked) (unmarkedGoals : ∀ goal ∈ goals, goal.IsUnmarked)
    (finished : (s.all goals env).1 = .ok envs)
    (finishedOther : (Search.all ⟨s.database, limits, number⟩ shuffled env).1 = .ok others) :
    envs.length = others.length ∧
      ∃ paired : List Env, paired.Perm others ∧ List.Forall₂ (Alike goals) envs paired := by
  have ready := Ready.of_unmarked reachable.acyclic plainEnv plainGoals unmarkedEnv unmarkedGoals
  have readyOther := Ready.of_unmarked reachable.acyclic plainEnv
    (fun goal member => plainGoals goal (perm.mem_iff.mpr member)) unmarkedEnv
    (fun goal member => unmarkedGoals goal (perm.mem_iff.mpr member))
  have searchable := Searchable.of_unmarked built plainClauses unmarkedClauses
  rw [Search.all_eq] at finished finishedOther
  obtain ⟨full, rfl⟩ := Search.exhausted_of_answer finished
  obtain ⟨fullOther, rfl⟩ := Search.exhausted_of_answer finishedOther
  obtain ⟨-, skeletons, enumerates⟩ :=
    explored_listing searchable s.limits s.limits.fuel 0 goals env s.copies (ready s.copies) full
  obtain ⟨-, arranged, enumeratesOther⟩ :=
    explored_listing searchable limits limits.fuel 0 shuffled env number (readyOther number)
      fullOther
  obtain ⟨there, back, forth, converse⟩ := exists_shuffles s.database perm
  -- The environments of the other search, in the order of the skeletons of this one.
  obtain ⟨paired, foundOther, permuted⟩ := List.perm_comp_forall₂
    (enumerates.perm_map enumeratesOther forth converse) enumeratesOther.found
  rw [List.forall₂_map_left_iff] at foundOther
  have alike := forall₂_of_common (fun _ _ _ found foundNext =>
    found.alike foundNext forth converse perm searchable.below (ready 0) (readyOther 0))
    enumerates.found foundOther
  exact ⟨alike.length_eq.trans permuted.length_eq, paired, permuted, alike⟩

namespace Streets

def leavingA : Predicate :=
  street (.atom "a") (.var "W")

def goingOn : Predicate :=
  way (.var "W") (.var "Z")

end Streets

theorem all_of_perm_streets :
    ∃ envs others : List Env, envs.length = 1 ∧
      (Search.all ⟨Streets.database, ⟨none, 4⟩, 0⟩ [Streets.leavingA, Streets.goingOn]
        Streets.named).1 = .ok envs ∧
      (Search.all ⟨Streets.database, ⟨none, 4⟩, 7⟩ [Streets.goingOn, Streets.leavingA]
        Streets.named).1 = .ok others ∧
      ∃ paired : List Env, paired.Perm others ∧
        List.Forall₂ (Alike [Streets.leavingA, Streets.goingOn]) envs paired := by
  have counted : (Search.all ⟨Streets.database, ⟨none, 4⟩, 0⟩ [Streets.leavingA, Streets.goingOn]
      Streets.named).1.map List.length = .ok 1 := by rfl
  have countedOther : (Search.all ⟨Streets.database, ⟨none, 4⟩, 7⟩
      [Streets.goingOn, Streets.leavingA] Streets.named).1.map List.length = .ok 1 := by rfl
  cases finished : (Search.all ⟨Streets.database, ⟨none, 4⟩, 0⟩
      [Streets.leavingA, Streets.goingOn] Streets.named).1 with
  | error halt =>
    rw [finished] at counted
    cases counted
  | ok envs =>
    cases finishedOther : (Search.all ⟨Streets.database, ⟨none, 4⟩, 7⟩
        [Streets.goingOn, Streets.leavingA] Streets.named).1 with
    | error halt =>
      rw [finishedOther] at countedOther
      cases countedOther
    | ok others =>
      rw [finished] at counted
      have paired := all_of_perm ⟨Streets.database, ⟨none, 4⟩, 0⟩ ⟨none, 4⟩ 7
        [Streets.leavingA, Streets.goingOn] [Streets.goingOn, Streets.leavingA] Streets.named envs
        others (.swap _ _ _) Streets.built_database Streets.reachable_named (by decide) (by decide)
        (by decide) (by decide) (by decide) (by decide) finished finishedOther
      exact ⟨envs, others, Except.ok.inj counted, rfl, rfl, paired.2⟩

end Backchain
