import Mathlib.Order.Monotone.Basic
import Backchain.Proofs.Database
import Backchain.Proofs.Search.Equations

/-!
A search that comes to its full end enumerates the solvable skeletons.

A part of a search that was not cut off has gone through some skeletons in search order, one for each
environment it found. It has met every skeleton that a solution of its environment derives, and what
it found for a skeleton has exactly the solutions of the environment and the equations. This is kept
by each step: a clause that does not unify with the goal has no solvable skeleton, and after a clause
that does, the rest of the search enumerates what is left. New copies take numbers that nothing in use
has, so values for their variables can be added to any solution.
-/
set_option autoImplicit false

namespace Backchain

/-- What was found for a skeleton: its solutions are those of the environment before and of the
equations, with numbers that increase from the number of copies made before. -/
structure Found (database : Database) (env : Env) (goals : List Predicate) (copies : Nat)
    (skeleton : Skeleton) (answer : Env) : Prop where
  fits : Fits database skeleton goals
  acyclic : answer.Acyclic
  numbered : ∃ number : Nat → Nat, StrictMono number ∧ copies < number 0 ∧
    ∀ value, answer.SolvedBy value ↔
      env.SolvedBy value ∧ Solves value (skeleton.equations database number goals)

/-- The skeletons that a part of a search went through, among those in its scope. -/
structure Enumerates (database : Database) (scope : Skeleton → Prop) (env : Env)
    (goals : List Predicate) (copies : Nat) (skeletons : List Skeleton) (answers : List Env) :
    Prop where
  sorted : skeletons.Pairwise Skeleton.Before
  inScope : ∀ skeleton ∈ skeletons, scope skeleton
  complete : ∀ skeleton value, scope skeleton → env.SolvedBy value →
    Derives database value skeleton (goals.map fun goal => goal.bind value) →
    skeleton ∈ skeletons
  found : List.Forall₂ (Found database env goals copies) skeletons answers

/-- A listing that came to its full end enumerates its scope. -/
def Explored (database : Database) (scope : Skeleton → Prop) (env : Env) (goals : List Predicate)
    (copies : Nat) (listing : Listing) : Prop :=
  listing.ending = .exhausted →
    copies ≤ listing.copies ∧
      ∃ skeletons, Enumerates database scope env goals copies skeletons listing.envs

variable {database : Database} {env : Env} {goals rest : List Predicate} {goal : Predicate}
  {copies : Nat}

theorem Found.mono {skeleton : Skeleton} {answer : Env} {later : Nat}
    (found : Found database env goals later skeleton answer) (earlier : copies ≤ later) :
    Found database env goals copies skeleton answer := by
  obtain ⟨number, increasing, above, solved⟩ := found.numbered
  exact ⟨found.fits, found.acyclic, number, increasing, Nat.lt_of_le_of_lt earlier above, solved⟩

theorem Enumerates.exists_found {scope : Skeleton → Prop} {skeletons : List Skeleton}
    {answers : List Env} (enumerates : Enumerates database scope env goals copies skeletons answers)
    {skeleton : Skeleton} (member : skeleton ∈ skeletons) :
    ∃ answer, Found database env goals copies skeleton answer := by
  have both := enumerates.found.imp fun skeleton answer found =>
    show (∃ answer, Found database env goals copies skeleton answer) ∧
      Found database env goals copies skeleton answer from ⟨⟨answer, found⟩, found⟩
  exact (List.forall₂_and_left _ _).mp both |>.1 skeleton member

/-! ## One part after another -/

theorem Explored.nothing {scope : Skeleton → Prop} {later : Nat} (greater : copies ≤ later)
    (none : ∀ skeleton value, scope skeleton → env.SolvedBy value →
      ¬ Derives database value skeleton (goals.map fun goal => goal.bind value)) :
    Explored database scope env goals copies (.nothing later) := by
  intro _
  refine ⟨greater, [], .nil, fun _ member => absurd member List.not_mem_nil, ?_, .nil⟩
  intro skeleton value inside solved derives
  exact absurd derives (none skeleton value inside solved)

theorem Explored.andThen {scope other : Skeleton → Prop} {first : Listing} {next : Nat → Listing}
    (explored : Explored database scope env goals copies first)
    (later : ∀ number, copies ≤ number →
      Explored database other env goals number (next number))
    (ordered : ∀ skeleton last, scope skeleton → other last → Skeleton.Before skeleton last) :
    Explored database (fun skeleton => scope skeleton ∨ other skeleton) env goals copies
      (first.andThen next) := by
  intro full
  have fullFirst := (Listing.ending_andThen_eq_exhausted.mp full).1
  rw [Listing.andThen_of_exhausted fullFirst] at full ⊢
  obtain ⟨greater, skeletons, before⟩ := explored fullFirst
  obtain ⟨greaterNext, lasts, after⟩ := later first.copies greater full
  refine ⟨Nat.le_trans greater greaterNext, skeletons ++ lasts, ?_, ?_, ?_, ?_⟩
  · refine List.pairwise_append.mpr ⟨before.sorted, after.sorted, ?_⟩
    intro skeleton member last memberLast
    exact ordered skeleton last (before.inScope skeleton member) (after.inScope last memberLast)
  · intro skeleton member
    rcases List.mem_append.mp member with inFirst | inLast
    · exact .inl (before.inScope skeleton inFirst)
    · exact .inr (after.inScope skeleton inLast)
  · intro skeleton value inside solved derives
    rcases inside with inFirst | inLast
    · exact List.mem_append_left _ (before.complete skeleton value inFirst solved derives)
    · exact List.mem_append_right _ (after.complete skeleton value inLast solved derives)
  · rw [Listing.envs, List.map_append]
    refine List.rel_append before.found (after.found.imp ?_)
    intro skeleton answer found
    exact found.mono greater

theorem Explored.congr {scope other : Skeleton → Prop} {listing : Listing}
    (explored : Explored database scope env goals copies listing)
    (narrow : ∀ skeleton, scope skeleton → other skeleton)
    (wide : ∀ skeleton value, other skeleton →
      Derives database value skeleton (goals.map fun goal => goal.bind value) →
      scope skeleton) : Explored database other env goals copies listing := by
  intro full
  obtain ⟨greater, skeletons, enumerates⟩ := explored full
  refine ⟨greater, skeletons, enumerates.sorted, ?_, ?_, enumerates.found⟩
  · exact fun skeleton member => narrow skeleton (enumerates.inScope skeleton member)
  · intro skeleton value inside solved derives
    exact enumerates.complete skeleton value (wide skeleton value inside derives) solved derives

theorem explored_listEach {α : Type} {fetch : Nat → Option α} {attempt : α → Nat → Listing}
    {scope : Nat → Skeleton → Prop} {places : List Nat} (ascending : places.Pairwise (· < ·))
    (ordered : ∀ i j skeleton last, i < j → scope i skeleton → scope j last →
      Skeleton.Before skeleton last)
    (stored : ∀ place ∈ places, ∃ item, fetch place = some item)
    (each : ∀ place ∈ places, ∀ item number, fetch place = some item → copies ≤ number →
      Explored database (scope place) env goals number (attempt item number)) :
    Explored database (fun skeleton => ∃ place ∈ places, scope place skeleton) env goals copies
      (listEach attempt (places.filterMap fetch) copies) := by
  induction places generalizing copies with
  | nil =>
    apply Explored.nothing (Nat.le_refl _)
    rintro _ _ ⟨_, member, _⟩
    exact absurd member List.not_mem_nil
  | cons place places ih =>
    obtain ⟨item, here⟩ := stored place List.mem_cons_self
    rw [List.pairwise_cons] at ascending
    rw [List.filterMap_cons_some here, listEach]
    have first := each place List.mem_cons_self item copies here (Nat.le_refl _)
    have others : ∀ number, copies ≤ number → Explored database
        (fun skeleton => ∃ place ∈ places, scope place skeleton) env goals number
        (listEach attempt (places.filterMap fetch) number) := by
      intro number greater
      apply ih ascending.2 fun other member => stored other (List.mem_cons_of_mem _ member)
      intro other member item later present above
      exact each other (List.mem_cons_of_mem _ member) item later present
        (Nat.le_trans greater above)
    have joined := first.andThen others <| by
      rintro skeleton last inside ⟨other, member, after⟩
      exact ordered place other skeleton last (ascending.1 other member) inside after
    apply joined.congr
    · rintro skeleton (inside | ⟨other, member, inside⟩)
      · exact ⟨place, List.mem_cons_self, inside⟩
      · exact ⟨other, List.mem_cons_of_mem _ member, inside⟩
    · rintro skeleton _ ⟨other, member, inside⟩ _
      rcases List.mem_cons.mp member with rfl | later
      · exact .inl inside
      · exact .inr ⟨other, later, inside⟩

/-! ## One clause -/

/-- What a search may be started on: plain terms, and no copy name with a number that is still to be
given out. -/
structure Ready (env : Env) (goals : List Predicate) (copies : Nat) : Prop where
  acyclic : env.Acyclic
  plainEnv : env.Every fun term => term.isPlain = true
  belowEnv : env.Every (Term.IsBelow copies)
  plain : ∀ goal ∈ goals, goal.IsPlain
  below : ∀ goal ∈ goals, goal.IsBelow copies

theorem Ready.mono {later : Nat} (ready : Ready env goals copies) (greater : copies ≤ later) :
    Ready env goals later where
  acyclic := ready.acyclic
  plainEnv := ready.plainEnv
  belowEnv := ready.belowEnv.imp fun _ below => below.mono greater
  plain := ready.plain
  below goal member := (ready.below goal member).mono greater

theorem Ready.unified {extended : Env} {clause : Predicate}
    (ready : Ready env (goal :: rest) copies) (plain : clause.IsPlain)
    (below : clause.IsBelow copies) (unified : env.unifiedPredicates? goal clause = some extended) :
    Ready extended rest copies where
  acyclic := Env.acyclic_of_unifiedPredicates ready.acyclic unified
  plainEnv := Env.every_of_unifiedPredicates Env.hereditary_isPlain ready.acyclic unified
    ready.plainEnv (ready.plain goal List.mem_cons_self) plain
  belowEnv := Env.every_of_unifiedPredicates (hereditary_isBelow copies) ready.acyclic unified
    ready.belowEnv (ready.below goal List.mem_cons_self) below
  plain other member := ready.plain other (List.mem_cons_of_mem _ member)
  below other member := ready.below other (List.mem_cons_of_mem _ member)

theorem Ready.append {first : List Predicate} (ready : Ready env rest copies)
    (plain : ∀ goal ∈ first, goal.IsPlain) (below : ∀ goal ∈ first, goal.IsBelow copies) :
    Ready env (first ++ rest) copies where
  acyclic := ready.acyclic
  plainEnv := ready.plainEnv
  belowEnv := ready.belowEnv
  plain := List.forall_mem_append.mpr ⟨plain, ready.plain⟩
  below := List.forall_mem_append.mpr ⟨below, ready.below⟩

theorem Ready.opened {extended : Env} {rule : Rule} (ready : Ready env (goal :: rest) copies)
    (plainHead : rule.head.IsPlain) (plainGoals : ∀ part ∈ rule.goals, part.IsPlain)
    (unified : env.unifiedPredicates? goal (rule.copiedHead (copies + 1)) = some extended) :
    Ready extended (rule.copiedGoals (copies + 1) ++ rest) (copies + 1) := by
  have later := ready.mono (Nat.le_succ copies)
  apply (later.unified (plainHead.rename _) (Predicate.isBelow_rename _ _) unified).append
  · intro part member
    obtain ⟨before, origin, rfl⟩ := List.mem_map.mp member
    exact (plainGoals before origin).rename _
  · exact fun part member => Rule.isBelow_of_mem_copiedGoals member

theorem Found.fact {extended answer : Env} {skeleton : Skeleton} {place : Nat} {fact : Predicate}
    (found : Found database extended rest copies skeleton answer) (acyclic : env.Acyclic)
    (stored : database.facts[place]? = some fact) (same : fact.signature = goal.signature)
    (unified : env.unifiedPredicates? goal fact = some extended) :
    Found database env (goal :: rest) copies (.fact place skeleton) answer := by
  obtain ⟨number, increasing, above, solutions⟩ := found.numbered
  refine ⟨.fact stored same found.fits, found.acyclic, number, increasing, above, ?_⟩
  intro value
  rw [solutions value, Env.solvedBy_iff_of_unifiedPredicates acyclic unified value,
    Skeleton.equations, stored, and_assoc]
  simp only [solves_cons, toTerm_bind_eq_iff]

/-- The numbers of the copies when one more copy is made first. -/
def numberedFrom (first : Nat) (number : Nat → Nat) : Nat → Nat
  | 0 => first
  | i + 1 => number i

theorem strictMono_numberedFrom {first : Nat} {number : Nat → Nat} (increasing : StrictMono number)
    (above : first < number 0) : StrictMono (numberedFrom first number) := by
  apply strictMono_nat_of_lt_succ
  intro i
  cases i with
  | zero => exact above
  | succ i => exact increasing (Nat.lt_succ_self i)

theorem Found.rule {extended answer : Env} {skeleton : Skeleton} {place : Nat} {rule : Rule}
    (found : Found database extended (rule.copiedGoals (copies + 1) ++ rest) (copies + 1) skeleton
      answer)
    (acyclic : env.Acyclic) (stored : database.rules[place]? = some rule)
    (same : rule.head.signature = goal.signature)
    (unified : env.unifiedPredicates? goal (rule.copiedHead (copies + 1)) = some extended) :
    let count := (rule.copiedGoals (copies + 1)).length
    Found database env (goal :: rest) copies
      (.rule place (skeleton.take count) (skeleton.drop count)) answer := by
  intro count
  obtain ⟨number, increasing, above, solutions⟩ := found.numbered
  obtain ⟨fitsParts, fitsRest⟩ := found.fits.split
  have fitsRule := fitsParts.of_signatures (signatures_copiedGoals rule (copies + 1))
  refine ⟨.rule stored same fitsRule fitsRest, found.acyclic, numberedFrom (copies + 1) number,
    strictMono_numberedFrom increasing above, Nat.lt_succ_self copies, ?_⟩
  intro value
  have joined : skeleton.equations database number (rule.copiedGoals (copies + 1) ++ rest) =
      (skeleton.take count).equations database number (rule.copiedGoals (copies + 1)) ++
        (skeleton.drop count).equations database
          (fun i => number (i + (skeleton.take count).copies)) rest := by
    rw [← equations_append fitsParts, Skeleton.take_append_drop]
  rw [solutions value, Env.solvedBy_iff_of_unifiedPredicates acyclic unified value, joined,
    Skeleton.equations, stored, and_assoc]
  simp only [solves_cons, toTerm_bind_eq_iff]
  rfl

/-- Values under which the next copy of a rule stands for the rule's use in a derivation. Nothing in
use has a variable of that copy, so all else keeps its own values. -/
theorem exists_opened {value : String → Term} {place : Nat} {rule : Rule} {parts last : Skeleton}
    (stored : database.rules[place]? = some rule)
    (facts : ∀ fact ∈ database.facts, fact.IsBelow 0) (ready : Ready env (goal :: rest) copies)
    (derives : Derives database value (.rule place parts last)
      ((goal :: rest).map fun goal => goal.bind value)) :
    ∃ chosen : String → Term, (env.SolvedBy value → env.SolvedBy chosen) ∧
      goal.bind chosen = (rule.copiedHead (copies + 1)).bind chosen ∧
      Fits database parts (rule.copiedGoals (copies + 1)) ∧
      Derives database chosen (parts.append last)
        ((rule.copiedGoals (copies + 1) ++ rest).map fun goal => goal.bind chosen) := by
  rw [List.map_cons] at derives
  generalize equal : goal.bind value = instance_ at derives
  cases derives with
  | rule inner present within after =>
    obtain rfl := Option.some.inj (stored.symm.trans present)
    let chosen : String → Term := withCopies value (fun _ : Unit => copies + 1) fun _ => inner
    have fresh : ∀ _ : Unit, copies < copies + 1 := fun _ => Nat.lt_succ_self copies
    have onCopy : (fun x => chosen (copyName (copies + 1) x)) = inner :=
      funext fun x => withCopies_copyName (fun _ _ _ => rfl) () x
    have onRest : (rest.map fun goal => goal.bind chosen) = rest.map fun goal => goal.bind value :=
      List.map_congr_left fun other member =>
        bind_withCopies (ready.below other (List.mem_cons_of_mem _ member)) fresh
    -- The variables of facts are shared with everything, so they must keep their values too.
    have agree : ∀ fact ∈ database.facts, fact.bind value = fact.bind chosen := fun fact member =>
      (bind_withCopies ((facts fact member).mono (Nat.zero_le copies)) fresh).symm
    have fits := within.fits.of_signatures
      ((signatures_bind inner rule.goals).trans (signatures_copiedGoals rule (copies + 1)).symm)
    refine ⟨chosen, solvedBy_withCopies ready.belowEnv fresh, ?_, fits, ?_⟩
    · rw [copiedHead_bind, onCopy, ← equal]
      exact bind_withCopies (ready.below goal List.mem_cons_self) fresh
    · rw [List.map_append, copiedGoals_bind, onCopy, onRest]
      exact (within.congr agree).append (after.congr agree)

def StartsWithFact (place : Nat) (skeleton : Skeleton) : Prop :=
  ∃ rest, skeleton = .fact place rest

def StartsWithRule (place : Nat) (skeleton : Skeleton) : Prop :=
  ∃ parts rest, skeleton = .rule place parts rest

theorem explored_listFact {goOn : Env → Nat → Listing} {place : Nat} {fact : Predicate}
    (stored : database.facts[place]? = some fact) (same : fact.signature = goal.signature)
    (plainFact : fact.IsPlain) (belowFact : fact.IsBelow copies)
    (ready : Ready env (goal :: rest) copies)
    (later : ∀ env, Ready env rest copies →
      Explored database (fun _ => True) env rest copies (goOn env copies)) :
    Explored database (StartsWithFact place) env (goal :: rest) copies
      (listFact goOn env goal fact copies) := by
  have plainGoal := ready.plain goal List.mem_cons_self
  unfold listFact
  cases unified : env.unifiedPredicates? goal fact with
  | none =>
    apply Explored.nothing (Nat.le_refl _)
    rintro _ value ⟨last, rfl⟩ solved derives
    rw [List.map_cons] at derives
    generalize equal : goal.bind value = instance_ at derives
    cases derives with
    | fact present _ =>
      obtain rfl := Option.some.inj (stored.symm.trans present)
      obtain ⟨extended, success⟩ := Env.unifiedPredicates_of_solution ready.acyclic ready.plainEnv
        plainGoal plainFact solved equal
      rw [unified] at success
      cases success
  | some extended =>
    intro full
    obtain ⟨greater, skeletons, enumerates⟩ :=
      later extended (ready.unified plainFact belowFact unified) full
    have solvedBy := Env.solvedBy_iff_of_unifiedPredicates ready.acyclic unified
    refine ⟨greater, skeletons.map (.fact place), ?_, ?_, ?_, ?_⟩
    · exact enumerates.sorted.map _ fun _ _ before => .sameFact before
    · intro skeleton member
      obtain ⟨last, -, rfl⟩ := List.mem_map.mp member
      exact ⟨last, rfl⟩
    · rintro _ value ⟨last, rfl⟩ solved derives
      rw [List.map_cons] at derives
      generalize equal : goal.bind value = instance_ at derives
      cases derives with
      | fact present derived =>
        obtain rfl := Option.some.inj (stored.symm.trans present)
        exact List.mem_map_of_mem
          (enumerates.complete last value trivial ((solvedBy value).mpr ⟨solved, equal⟩) derived)
    · rw [List.forall₂_map_left_iff]
      exact enumerates.found.imp fun _ _ found => found.fact ready.acyclic stored same unified

theorem explored_listRule {limits : Limits} {expansions : Nat}
    {goOn : List Predicate → Env → Nat → Listing} {place : Nat} {rule : Rule}
    (stored : database.rules[place]? = some rule) (same : rule.head.signature = goal.signature)
    (plainHead : rule.head.IsPlain) (plainGoals : ∀ part ∈ rule.goals, part.IsPlain)
    (facts : ∀ fact ∈ database.facts, fact.IsBelow 0)
    (ready : Ready env (goal :: rest) copies)
    (later : ∀ goals env, Ready env (goals ++ rest) (copies + 1) →
      Explored database (fun _ => True) env (goals ++ rest) (copies + 1)
        (goOn goals env (copies + 1))) :
    Explored database (StartsWithRule place) env (goal :: rest) copies
      (listRule limits expansions goOn env goal rule copies) := by
  have plainGoal := ready.plain goal List.mem_cons_self
  simp only [listRule]
  cases unified : env.unifiedPredicates? goal (rule.copiedHead (copies + 1)) with
  | none =>
    apply Explored.nothing (Nat.le_succ copies)
    rintro _ value ⟨parts, last, rfl⟩ solved derives
    obtain ⟨chosen, solvedChosen, equal, -⟩ := exists_opened stored facts ready derives
    obtain ⟨extended, success⟩ := Env.unifiedPredicates_of_solution ready.acyclic ready.plainEnv
      plainGoal (plainHead.rename _) (solvedChosen solved) equal
    rw [← Rule.copiedHead, unified] at success
    cases success
  | some extended =>
    cases limits.reached expansions with
    | some limit =>
      intro full
      cases full
    | none =>
      intro full
      obtain ⟨greater, skeletons, enumerates⟩ :=
        later _ extended (ready.opened plainHead plainGoals unified) full
      have solvedBy := Env.solvedBy_iff_of_unifiedPredicates ready.acyclic unified
      let count := (rule.copiedGoals (copies + 1)).length
      refine ⟨Nat.le_of_succ_le greater,
        skeletons.map fun skeleton => .rule place (skeleton.take count) (skeleton.drop count),
        ?_, ?_, ?_, ?_⟩
      · apply enumerates.sorted.map
        intro skeleton last before
        rcases Skeleton.before_take_drop before count with inside | ⟨alike, after⟩
        · exact .within inside
        · rw [alike]
          exact .sameRule after
      · intro skeleton member
        obtain ⟨last, -, rfl⟩ := List.mem_map.mp member
        exact ⟨_, _, rfl⟩
      · rintro _ value ⟨parts, last, rfl⟩ solved derives
        obtain ⟨chosen, solvedChosen, equal, fits, opened⟩ :=
          exists_opened stored facts ready derives
        have member := enumerates.complete _ chosen trivial
          ((solvedBy chosen).mpr ⟨solvedChosen solved, equal⟩) opened
        obtain ⟨taken, dropped⟩ := fits.take_drop_append last
        exact List.mem_map.mpr ⟨_, member, by rw [taken, dropped]⟩
      · rw [List.forall₂_map_left_iff]
        exact enumerates.found.imp fun _ _ found => found.rule ready.acyclic stored same unified

/-! ## The whole search -/

structure Searchable (database : Database) : Prop where
  indexed : database.Indexed
  plain : database.Every Predicate.IsPlain
  below : ∀ fact ∈ database.facts, fact.IsBelow 0

theorem explored_facts {goOn : Env → Nat → Listing} (searchable : Searchable database)
    (ready : Ready env (goal :: rest) copies)
    (later : ∀ env copies, Ready env rest copies →
      Explored database (fun _ => True) env rest copies (goOn env copies)) :
    Explored database
      (fun skeleton => ∃ place ∈ Database.placesIn Predicate.signature database.facts
        goal.signature, StartsWithFact place skeleton)
      env (goal :: rest) copies
      (listEach (listFact goOn env goal) (database.factsOf goal.signature) copies) := by
  rw [Database.factsOf, searchable.indexed.facts]
  apply explored_listEach Database.pairwise_placesIn
  · rintro i j _ _ earlier ⟨skeleton, rfl⟩ ⟨last, rfl⟩
    exact .earlierFact earlier
  · intro place member
    obtain ⟨fact, stored, -⟩ := Database.mem_placesIn.mp member
    exact ⟨fact, stored⟩
  · intro place member fact number stored greater
    obtain ⟨other, present, same⟩ := Database.mem_placesIn.mp member
    obtain rfl := Option.some.inj (stored.symm.trans present)
    have inside := Array.mem_of_getElem? stored
    exact explored_listFact stored same (searchable.plain.1 fact inside)
      ((searchable.below fact inside).mono (Nat.zero_le number)) (ready.mono greater)
      fun env => later env number

theorem explored_rules (limits : Limits) (expansions : Nat)
    {goOn : List Predicate → Env → Nat → Listing} (searchable : Searchable database)
    (ready : Ready env (goal :: rest) copies)
    (later : ∀ goals env copies, Ready env (goals ++ rest) copies →
      Explored database (fun _ => True) env (goals ++ rest) copies (goOn goals env copies)) :
    Explored database
      (fun skeleton => ∃ place ∈ Database.placesIn (fun rule => rule.head.signature)
        database.rules goal.signature, StartsWithRule place skeleton)
      env (goal :: rest) copies
      (listEach (listRule limits expansions goOn env goal) (database.rulesOf goal.signature)
        copies) := by
  rw [Database.rulesOf, searchable.indexed.rules]
  apply explored_listEach Database.pairwise_placesIn
  · rintro i j _ _ earlier ⟨parts, skeleton, rfl⟩ ⟨others, last, rfl⟩
    exact .earlierRule earlier
  · intro place member
    obtain ⟨rule, stored, -⟩ := Database.mem_placesIn.mp member
    exact ⟨rule, stored⟩
  · intro place member rule number stored greater
    obtain ⟨other, present, same⟩ := Database.mem_placesIn.mp member
    obtain rfl := Option.some.inj (stored.symm.trans present)
    obtain ⟨plainHead, plainGoals⟩ := searchable.plain.2 rule (Array.mem_of_getElem? stored)
    exact explored_listRule stored same plainHead plainGoals searchable.below (ready.mono greater)
      fun goals env => later goals env (number + 1)

theorem explored_listGoals {limits : Limits} {expansions : Nat}
    {expand : List Predicate → Env → Nat → Listing} (searchable : Searchable database)
    (later : ∀ goals env copies, Ready env goals copies →
      Explored database (fun _ => True) env goals copies (expand goals env copies))
    (goals : List Predicate) (env : Env) (copies : Nat) (ready : Ready env goals copies) :
    Explored database (fun _ => True) env goals copies
      (listGoals database limits expansions expand goals env copies) := by
  induction goals generalizing env copies with
  | nil =>
    intro _
    refine ⟨Nat.le_refl _, [.done], List.pairwise_singleton _ _, fun _ _ => trivial, ?_, ?_⟩
    · intro skeleton value _ _ derives
      cases derives
      exact List.mem_singleton.mpr rfl
    · refine .cons ⟨.done, ready.acyclic, fun i => copies + 1 + i, ?_, Nat.lt_succ_self copies, ?_⟩
        .nil
      · exact fun i j less => Nat.add_lt_add_left less _
      · intro value
        simp [Skeleton.equations, Solves]
  | cons goal rest ih =>
    have facts := explored_facts searchable ready ih
    have rules := fun number (greater : copies ≤ number) =>
      explored_rules limits expansions searchable (ready.mono greater)
        fun goals env copies => later (goals ++ rest) env copies
    have joined := facts.andThen rules <| by
      rintro _ _ ⟨_, _, skeleton, rfl⟩ ⟨_, _, parts, last, rfl⟩
      exact .factRule
    rw [listGoals]
    apply joined.congr
    · exact fun _ _ => trivial
    · intro skeleton value _ derives
      rw [List.map_cons] at derives
      generalize equal : goal.bind value = instance_ at derives
      have same := congrArg Predicate.signature equal
      rw [Predicate.signature_bind] at same
      cases derives with
      | fact stored _ =>
        rw [Predicate.signature_bind] at same
        exact .inl ⟨_, Database.mem_placesIn.mpr ⟨_, stored, same.symm⟩, _, rfl⟩
      | rule inner stored _ _ =>
        rw [Predicate.signature_bind] at same
        exact .inr ⟨_, Database.mem_placesIn.mpr ⟨_, stored, same.symm⟩, _, _, rfl⟩

/-- A search that is not cut off enumerates all skeletons that some solution derives. -/
theorem explored_listing (searchable : Searchable database) (limits : Limits)
    (fuel expansions : Nat) (goals : List Predicate) (env : Env) (copies : Nat)
    (ready : Ready env goals copies) :
    Explored database (fun _ => True) env goals copies
      (listing database limits fuel expansions goals env copies) := by
  induction fuel generalizing expansions goals env copies with
  | zero =>
    -- Without fuel every rule that unifies leaves the search unfinished.
    have abandoned : ∀ (goals : List Predicate) (env : Env) (copies : Nat), Ready env goals copies →
        Explored database (fun _ => True) env goals copies ⟨[], .unfinished, copies⟩ :=
      fun _ _ _ _ full => nomatch full
    exact explored_listGoals searchable abandoned goals env copies ready
  | succ fuel ih => exact explored_listGoals searchable (ih (expansions + 1)) goals env copies ready

theorem Searchable.of_unmarked (built : database.Built) (plain : database.Every Predicate.IsPlain)
    (unmarked : database.Every Predicate.IsUnmarked) : Searchable database :=
  ⟨built.indexed, plain, fun fact member => (unmarked.1 fact member).isBelow 0⟩

theorem Ready.of_unmarked (acyclic : env.Acyclic)
    (plainEnv : env.Every fun term => term.isPlain = true) (plain : ∀ goal ∈ goals, goal.IsPlain)
    (unmarkedEnv : env.Every Term.IsUnmarked) (unmarked : ∀ goal ∈ goals, goal.IsUnmarked)
    (copies : Nat) : Ready env goals copies where
  acyclic := acyclic
  plainEnv := plainEnv
  belowEnv := unmarkedEnv.imp fun _ unmarked => unmarked.isBelow copies
  plain := plain
  below goal member := (unmarked goal member).isBelow copies

theorem Found.isMgu {skeleton : Skeleton} {answer : Env}
    (found : Found database env goals copies skeleton answer) :
    ∃ number : Nat → Nat, StrictMono number ∧ copies < number 0 ∧
      IsMgu answer.value (env.equations ++ skeleton.equations database number goals) := by
  obtain ⟨number, increasing, above, solutions⟩ := found.numbered
  have solves : ∀ value, Solves value (env.equations ++ skeleton.equations database number goals) ↔
      answer.SolvedBy value := by
    intro value
    rw [solves_append, solves_equations, solutions value]
  refine ⟨number, increasing, above, (solves _).mpr (Env.solvedBy_value found.acyclic), ?_⟩
  intro other solved
  exact ⟨other, fun x => (Env.bind_value ((solves other).mp solved) x).symm⟩

/-- All environments of a search that comes to its full end, in order, are most general solutions of
the solvable skeletons of the goals, in search order: there is one for each of them and no other. -/
theorem all_enumerates_skeletons (s : Search) (goals : List Predicate) (env : Env)
    (envs : List Env) (built : s.database.Built) (reachable : env.Reachable)
    (plainClauses : s.database.Every Predicate.IsPlain)
    (plainEnv : env.Every fun term => term.isPlain = true)
    (plainGoals : ∀ goal ∈ goals, goal.IsPlain)
    (unmarkedClauses : s.database.Every Predicate.IsUnmarked)
    (unmarkedEnv : env.Every Term.IsUnmarked) (unmarkedGoals : ∀ goal ∈ goals, goal.IsUnmarked)
    (finished : (s.all goals env).1 = .ok envs) :
    ∃ skeletons : List Skeleton, skeletons.Nodup ∧ skeletons.Pairwise Skeleton.Before ∧
      (∀ skeleton, skeleton ∈ skeletons ↔
        Fits s.database skeleton goals ∧ skeleton.Solvable s.database env goals) ∧
      List.Forall₂ (fun skeleton answer => ∃ number : Nat → Nat,
          StrictMono number ∧ s.copies < number 0 ∧
            IsMgu answer.value (env.equations ++ skeleton.equations s.database number goals))
        skeletons envs := by
  have ready := Ready.of_unmarked reachable.acyclic plainEnv plainGoals unmarkedEnv unmarkedGoals
  have searchable := Searchable.of_unmarked built plainClauses unmarkedClauses
  rw [Search.all_eq] at finished
  obtain ⟨full, rfl⟩ := Search.exhausted_of_answer finished
  obtain ⟨-, skeletons, enumerates⟩ :=
    explored_listing searchable s.limits s.limits.fuel 0 goals env s.copies (ready s.copies) full
  refine ⟨skeletons, ?_, enumerates.sorted, ?_, enumerates.found.imp fun _ _ => Found.isMgu⟩
  · refine enumerates.sorted.imp ?_
    rintro skeleton _ before rfl
    exact Skeleton.not_before_self skeleton before
  · intro skeleton
    constructor
    · intro member
      obtain ⟨answer, found⟩ := enumerates.exists_found member
      obtain ⟨number, -, -, mgu⟩ := found.isMgu
      obtain ⟨solved, solves⟩ := solves_append.mp mgu.1
      refine ⟨found.fits, exists_solution searchable.below (ready 0).below (ready 0).belowEnv ?_
        (fun i => Nat.succ_pos i) (solves_equations.mp solved)
        (derives_of_solves found.fits solves)⟩
      exact fun i j => Nat.succ.inj
    · rintro ⟨fits, value, solves⟩
      obtain ⟨solved, inside⟩ := solves_append.mp solves
      exact enumerates.complete skeleton value trivial (solves_equations.mp solved)
        (derives_of_solves fits inside)

theorem all_enumerates_skeletons_streets :
    ∃ skeletons : List Skeleton, skeletons.length = 2 ∧ skeletons.Pairwise Skeleton.Before ∧
      ∀ skeleton, skeleton ∈ skeletons ↔ Fits Streets.database skeleton [Streets.wayFromA] ∧
        skeleton.Solvable Streets.database Streets.named [Streets.wayFromA] := by
  have counted : (Streets.search.all [Streets.wayFromA] Streets.named).1.map List.length = .ok 2 :=
    by rfl
  cases finished : (Streets.search.all [Streets.wayFromA] Streets.named).1 with
  | error halt =>
    rw [finished] at counted
    cases counted
  | ok envs =>
    rw [finished] at counted
    obtain ⟨skeletons, -, sorted, solvable, paired⟩ := all_enumerates_skeletons Streets.search
      [Streets.wayFromA] Streets.named envs Streets.built_database Streets.reachable_named
      (by decide) (by decide) (by decide) (by decide) (by decide) (by decide) finished
    exact ⟨skeletons, paired.length_eq.trans (Except.ok.inj counted), sorted, solvable⟩

end Backchain
