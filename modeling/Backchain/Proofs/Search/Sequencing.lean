import Backchain.Proofs.Env.Unbounded
import Backchain.Proofs.Search.MoreClauses

/-!
A conjunction is searched in sequence.

Where the first goals of a search are all used up, it searches the last goals as a search of its own
would, only that it has made other copies by then. So next to a search of the first goals alone, which
has a leaf there, the whole search is the same search with the search of the last goals at each leaf.
Main statement: without a limit, the search of all goals comes to its end if and only if the search of
the first goals does and each search of the last goals from one of its environments, and it finds what
these find, one after another, up to the numbers of copies.
-/
set_option autoImplicit false

namespace Backchain

/-! ## A search in front of others -/

/-- The whole listing is the first one with other listings at its leaves. If both had the same fuel and
the whole one comes to its full end, then so does the first one and so does the listing at each leaf,
and the environments of these make up those of the whole. If the first one comes to its full end and so
does each listing that may stand at one of its leaves, then so does the whole one. -/
structure Sequences (extra : Nat) (leaf : Env → Listing → Prop) (first whole : Listing) : Prop where
  splits : extra = 0 → whole.ending = .exhausted → first.ending = .exhausted ∧
    ∃ parts, List.Forall₂ (fun env part => leaf env part ∧ part.ending = .exhausted)
      first.envs parts ∧ whole.envs = parts.flatMap Listing.envs
  joins : first.ending = .exhausted →
    (∀ env ∈ first.envs, ∀ part, leaf env part → part.ending = .exhausted) →
      whole.ending = .exhausted

namespace Sequences

variable {extra : Nat} {leaf : Env → Listing → Prop} {first whole : Listing}
  {next nextWhole : Nat → Listing}

theorem nothing (copies number : Nat) : Sequences extra leaf (.nothing copies) (.nothing number) where
  splits _ _ := ⟨rfl, [], .nil, rfl⟩
  joins _ _ := rfl

/-- Nothing is said about listings that are both cut off, and the first one may be cut off alone if the
whole one had more fuel. -/
theorem of_halted (halted : first.ending ≠ .exhausted)
    (haltedWhole : extra = 0 → whole.ending ≠ .exhausted) : Sequences extra leaf first whole where
  splits none full := absurd full (haltedWhole none)
  joins full := absurd full halted

theorem single {env : Env} {copies : Nat} (here : leaf env whole) :
    Sequences extra leaf ⟨[(env, copies)], .exhausted, copies⟩ whole where
  splits _ full := ⟨rfl, [whole], .cons ⟨here, full⟩ .nil, (List.append_nil _).symm⟩
  joins _ each := each env (List.mem_singleton_self env) whole here

theorem andThen (before : Sequences extra leaf first whole)
    (later : Sequences extra leaf (next first.copies) (nextWhole whole.copies)) :
    Sequences extra leaf (first.andThen next) (whole.andThen nextWhole) where
  splits none ended := by
    obtain ⟨fullWhole, fullNextWhole⟩ := Listing.ending_andThen_eq_exhausted.mp ended
    obtain ⟨full, parts, pairs, same⟩ := before.splits none fullWhole
    obtain ⟨fullNext, partsNext, pairsNext, sameNext⟩ := later.splits none fullNextWhole
    refine ⟨Listing.ending_andThen_eq_exhausted.mpr ⟨full, fullNext⟩, parts ++ partsNext, ?_, ?_⟩
    · rw [Listing.envs_andThen full]
      exact List.rel_append pairs pairsNext
    · rw [Listing.envs_andThen fullWhole, same, sameNext, List.flatMap_append]
  joins ended each := by
    obtain ⟨full, fullNext⟩ := Listing.ending_andThen_eq_exhausted.mp ended
    rw [Listing.envs_andThen full] at each
    obtain ⟨here, there⟩ := List.forall_mem_append.mp each
    exact Listing.ending_andThen_eq_exhausted.mpr ⟨before.joins full here, later.joins fullNext there⟩

end Sequences

section

variable {extra : Nat} {leaf : Env → Listing → Prop} {database : Database} {limits : Limits}
  {expansions : Nat} {last : List Predicate}

theorem sequences_listEach {α : Type} {attempt attemptWhole : α → Nat → Listing}
    {candidates : List α} {copies number : Nat} (grows : ∀ candidate, Grows (attempt candidate))
    (growsWhole : ∀ candidate, Grows (attemptWhole candidate))
    (each : ∀ candidate ∈ candidates, ∀ later laterWhole, copies ≤ later → number ≤ laterWhole →
      Sequences extra leaf (attempt candidate later) (attemptWhole candidate laterWhole)) :
    Sequences extra leaf (listEach attempt candidates copies)
      (listEach attemptWhole candidates number) := by
  induction candidates generalizing copies number with
  | nil => exact .nothing copies number
  | cons candidate candidates ih =>
    apply Sequences.andThen
    · exact each candidate List.mem_cons_self copies number (Nat.le_refl _) (Nat.le_refl _)
    · apply ih
      intro other member later laterWhole above aboveWhole
      exact each other (List.mem_cons_of_mem _ member) later laterWhole
        ((grows candidate copies).trans above) ((growsWhole candidate number).trans aboveWhole)

/-- The first search has used up its goals where the whole one goes on with the last goals. -/
theorem sequences_listGoals {expand expandWhole : List Predicate → Env → Nat → Listing}
    (facts : ∀ fact ∈ database.facts, fact.IsUnmarked) (grows : ∀ goals env, Grows (expand goals env))
    (growsWhole : ∀ goals env, Grows (expandWhole goals env))
    (atLeaf : ∀ env other copies number numbers,
      Alongside database database copies number numbers last env other →
        leaf env (listGoals database limits expansions expandWhole
          (last.map (Predicate.rename (renumbered numbers))) other number))
    (going : ∀ goals env other copies number numbers,
      Alongside database database copies number numbers (goals ++ last) env other →
        Sequences extra leaf (expand goals env copies)
          (expandWhole ((goals ++ last).map (Predicate.rename (renumbered numbers))) other number))
    (goals : List Predicate) (env other : Env) (copies number : Nat) {numbers : Equiv.Perm Nat}
    (alongside : Alongside database database copies number numbers (goals ++ last) env other) :
    Sequences extra leaf (listGoals database limits expansions expand goals env copies)
      (listGoals database limits expansions expandWhole
        ((goals ++ last).map (Predicate.rename (renumbered numbers))) other number) := by
  induction goals generalizing env other copies number with
  | nil => exact .single (atLeaf env other copies number numbers alongside)
  | cons goal rest ih =>
    rw [List.cons_append] at alongside ⊢
    rw [List.map_cons, listGoals, listGoals, Predicate.signature_rename]
    have byFact : ∀ fact, Grows
        (listFact (listGoals database limits expansions expand rest) env goal fact) :=
      grows_listFact (grows_listGoals grows rest) env goal
    have byFactWhole : ∀ fact, Grows (listFact (listGoals database limits expansions expandWhole
        ((rest ++ last).map (Predicate.rename (renumbered numbers)))) other
          (goal.rename (renumbered numbers)) fact) :=
      grows_listFact (grows_listGoals growsWhole _) other _
    apply Sequences.andThen
    · apply sequences_listEach byFact byFactWhole
      intro fact member later laterWhole above aboveWhole
      obtain ⟨place, stored⟩ := exists_place_of_mem_factsOf member
      exact (alongside.mono above aboveWhole).relates_listFact Sequences.nothing
        (facts fact (Array.mem_of_getElem? stored)) fun env other => ih env other _ _
    · apply sequences_listEach
      · exact grows_listRule (fun goals => grows (goals ++ rest)) env goal
      · exact grows_listRule (fun goals => growsWhole (goals ++ _)) other _
      intro rule _ later laterWhole above aboveWhole
      have here := alongside.mono ((grows_listEach byFact _ copies).trans above)
        ((grows_listEach byFactWhole _ number).trans aboveWhole)
      apply here.relates_listRule Sequences.nothing rule
      · exact fun _ => .of_halted (by simp) (by simp)
      · intro env other opened
        rw [← here.rename_opened rule, ← List.append_assoc]
        rw [← List.append_assoc] at opened
        exact going _ _ _ _ _ _ opened

end

/-! ## The last goals -/

/-- What a search lists for the last goals where it has come to them: from an environment that is this
one up to the numbers of copies, with at least the extra fuel left. -/
inductive Continues (database : Database) (limits : Limits) (extra : Nat) (last : List Predicate)
    (env : Env) : Listing → Prop where
  | reached (fuel : Nat) {other : Env} {copies number expansions : Nat} {numbers : Equiv.Perm Nat}
      (enough : extra ≤ fuel)
      (alongside : Alongside database database copies number numbers last env other) :
      Continues database limits extra last env
        (listing database limits fuel expansions (last.map (Predicate.rename (renumbered numbers)))
          other number)

section

variable {database : Database} {limits : Limits} {goals last : List Predicate} {env other : Env}
  {copies number : Nat} {numbers : Equiv.Perm Nat}

theorem sequences_listing (facts : ∀ fact ∈ database.facts, fact.IsUnmarked)
    (extra fuel expansions : Nat)
    (alongside : Alongside database database copies number numbers (goals ++ last) env other) :
    Sequences extra (Continues database limits extra last)
      (listing database limits fuel expansions goals env copies)
      (listing database limits (extra + fuel) expansions
        ((goals ++ last).map (Predicate.rename (renumbered numbers))) other number) := by
  induction fuel generalizing expansions goals env other copies number numbers with
  | zero =>
    -- The first search has no fuel to expand a goal, and the whole one has what is extra.
    cases extra with
    | zero =>
      apply sequences_listGoals facts (fun _ _ copies => Nat.le_refl copies)
        (fun _ _ copies => Nat.le_refl copies) ?_ ?_ goals env other copies number alongside
      · exact fun _ _ _ _ _ alongside => .reached 0 (Nat.le_refl 0) alongside
      · exact fun _ _ _ _ _ _ _ => .of_halted (by simp) (by simp)
    | succ extra =>
      apply sequences_listGoals facts (fun _ _ copies => Nat.le_refl copies)
        (grows_listing database limits extra (expansions + 1)) ?_ ?_ goals env other copies number
        alongside
      · exact fun _ _ _ _ _ alongside => .reached (extra + 1) (Nat.le_refl _) alongside
      · exact fun _ _ _ _ _ _ _ => .of_halted (by simp) (by simp)
  | succ fuel ih =>
    apply sequences_listGoals facts (grows_listing database limits fuel (expansions + 1))
      (grows_listing database limits (extra + fuel) (expansions + 1)) ?_ ?_ goals env other copies
      number alongside
    · exact fun _ _ _ _ _ alongside => .reached (extra + fuel + 1) (by omega) alongside
    · exact fun _ _ _ _ _ _ alongside => ih (expansions + 1) alongside

/-- Searches of the same goals whose copies have other numbers come to their full end both or neither,
and find the same up to these numbers. -/
theorem Alongside.exhausted_and_envs (facts : ∀ fact ∈ database.facts, fact.IsUnmarked)
    (limits : Limits) (fuel expansions : Nat)
    (alongside : Alongside database database copies number numbers goals env other) :
    let one := listing database limits fuel expansions goals env copies
    let two := listing database limits fuel expansions
      (goals.map (Predicate.rename (renumbered numbers))) other number
    (one.ending = .exhausted ↔ two.ending = .exhausted) ∧
      (two.ending = .exhausted → List.Forall₂ SameUpToNumbers one.envs two.envs) := by
  -- Nothing comes last, so the whole search goes on with nothing.
  have sequences : Sequences 0 (Continues database limits 0 []) _ _ :=
    sequences_listing facts 0 fuel expansions ((List.append_nil goals).symm ▸ alongside)
  rw [Nat.zero_add, List.append_nil] at sequences
  have atEnd {env : Env} {part : Listing} (leaf : Continues database limits 0 [] env part) :
      part.ending = .exhausted ∧ ∃ other, part.envs = [other] ∧ SameUpToNumbers env other := by
    obtain ⟨fuel, -, alongside⟩ := leaf
    cases fuel <;> exact ⟨rfl, _, rfl, _, alongside.renames⟩
  refine ⟨⟨fun full => sequences.joins full fun env _ part leaf => (atEnd leaf).1,
    fun full => (sequences.splits rfl full).1⟩, fun full => ?_⟩
  obtain ⟨-, parts, pairs, same⟩ := sequences.splits rfl full
  have single : ∀ env part, Continues database limits 0 [] env part ∧ part.ending = .exhausted →
      List.Forall₂ SameUpToNumbers [env] part.envs := by
    intro env part pair
    obtain ⟨other, alone, renamed⟩ := (atEnd pair.1).2
    rw [alone]
    exact .cons renamed .nil
  have found : List.Forall₂ SameUpToNumbers (List.flatMap (fun env => [env]) _)
      (List.flatMap Listing.envs parts) := List.rel_flatMap pairs single
  rwa [List.flatMap_singleton', ← same] at found

/-! ## Without a limit -/

section

variable {others : Limits} (unlimited : limits.depth = none) (unlimitedOthers : others.depth = none)
  (expansions more : Nat)
include unlimited unlimitedOthers

theorem listRule_of_unlimited (goOn : List Predicate → Env → Nat → Listing) (env : Env)
    (goal : Predicate) :
    listRule limits expansions goOn env goal = listRule others more goOn env goal := by
  have reached : limits.reached expansions = none :=
    Limits.reached_eq_none.mpr (by simp [unlimited])
  have reachedOthers : others.reached more = none :=
    Limits.reached_eq_none.mpr (by simp [unlimitedOthers])
  funext rule copies
  simp only [listRule, reached, reachedOthers]

theorem listGoals_of_unlimited (expand : List Predicate → Env → Nat → Listing) :
    listGoals database limits expansions expand = listGoals database others more expand := by
  funext goals
  induction goals with
  | nil => rfl
  | cons goal rest ih =>
    funext env copies
    rw [listGoals, listGoals, ih, listRule_of_unlimited unlimited unlimitedOthers expansions more]

/-- It does not matter how many expansions a branch has made. -/
theorem listing_of_unlimited (fuel : Nat) :
    listing database limits fuel expansions = listing database others fuel more := by
  induction fuel generalizing expansions more with
  | zero =>
    funext goals env copies
    rw [listing, listing, listGoals_of_unlimited unlimited unlimitedOthers expansions more]
  | succ fuel ih =>
    funext goals env copies
    rw [listing, listing, listGoals_of_unlimited unlimited unlimitedOthers expansions more,
      ih (expansions + 1) (more + 1)]

end

theorem Continues.exists_below {extra : Nat} {part : Listing}
    (continues : Continues database limits extra last env part) :
    ∃ count, env.Every (Term.IsBelow count) := by
  obtain ⟨fuel, enough, alongside⟩ := continues
  exact ⟨_, alongside.unclaimed.env⟩

/-- A search of the last goals of its own, with any number of copies that is not below those in use,
comes to its full end if the part of the whole search does, and finds the same. -/
theorem Continues.exhausted_and_envs {extra count : Nat} {part : Listing}
    (unlimited : limits.depth = none) (facts : ∀ fact ∈ database.facts, fact.IsUnmarked)
    (lastGoals : ∀ goal ∈ last, goal.IsUnmarked)
    (below : env.Every (Term.IsBelow count))
    (continues : Continues database limits extra last env part) :
    ∃ fuel, extra ≤ fuel ∧
      let own := Search.listing ⟨database, ⟨none, fuel⟩, count⟩ last env
      (own.ending = .exhausted ↔ part.ending = .exhausted) ∧
        (part.ending = .exhausted → List.Forall₂ SameUpToNumbers own.envs part.envs) := by
  obtain @⟨fuel, other, copies, number, expansions, numbers, enough, alongside⟩ := continues
  have unclaimed : Unclaimed database env last count :=
    ⟨fun fact member => (facts fact member).isBelow count, below,
      fun goal member => (lastGoals goal member).isBelow count⟩
  have own : Alongside database database count number numbers last env other :=
    { alongside with unclaimed }
  refine ⟨fuel, enough, ?_⟩
  rw [listing_of_unlimited unlimited (rfl : Limits.depth ⟨none, fuel⟩ = none) expansions 0]
  exact own.exhausted_and_envs facts ⟨none, fuel⟩ fuel 0

end

/-! ## Answers of searches without a limit -/

/-- Without a limit the search comes to its end, and these are the environments that it finds. -/
def Finds (database : Database) (copies : Nat) (goals : List Predicate) (env : Env)
    (found : List Env) : Prop :=
  Ends (fun fuel => (Search.all ⟨database, ⟨none, fuel⟩, copies⟩ goals env).1.toOption) found

section

variable {database : Database} {copies number fuel : Nat} {first last goals : List Predicate}
  {env : Env} {found : List Env}

theorem Search.toOption_all {s : Search} : (s.all goals env).1.toOption = some found ↔
    (s.listing goals env).ending = .exhausted ∧ (s.listing goals env).envs = found := by
  rw [Search.all_eq]
  constructor
  · intro finished
    apply Search.exhausted_of_answer
    cases answer : (s.listing goals env).ending.answer (s.listing goals env).envs with
    | error halt =>
      rw [answer] at finished
      cases finished
    | ok envs =>
      rw [answer] at finished
      cases finished
      rfl
  · rintro ⟨full, rfl⟩
    rw [full]
    rfl

theorem finds_of_exhausted
    (full : (Search.listing ⟨database, ⟨none, fuel⟩, copies⟩ goals env).ending = .exhausted) :
    Finds database copies goals env
      (Search.listing ⟨database, ⟨none, fuel⟩, copies⟩ goals env).envs := by
  refine ⟨fuel, fun more above => Search.toOption_all.mpr ?_⟩
  have wider : Limits.most ⟨none, fuel⟩ ≤ Limits.most ⟨none, more⟩ := above
  obtain ⟨fullWide, same, -⟩ := Search.listing_of_wider wider full
  exact ⟨fullWide, same⟩

theorem Finds.exists_exhausted (finds : Finds database copies goals env found) :
    ∃ fuel, (Search.listing ⟨database, ⟨none, fuel⟩, copies⟩ goals env).ending = .exhausted ∧
      (Search.listing ⟨database, ⟨none, fuel⟩, copies⟩ goals env).envs = found := by
  obtain ⟨enough, each⟩ := finds
  exact ⟨enough, Search.toOption_all.mp (each enough (Nat.le_refl enough))⟩

theorem Finds.unique {other : List Env} (finds : Finds database copies goals env found)
    (findsOther : Finds database copies goals env other) : found = other := by
  obtain ⟨enough, each⟩ := finds
  obtain ⟨more, eachOther⟩ := findsOther
  have same := each (max enough more) (Nat.le_max_left _ _)
  rw [eachOther (max enough more) (Nat.le_max_right _ _)] at same
  exact (Option.some.inj same).symm

end

theorem exists_between {α β γ : Type} {left : α → γ → Prop} {right : γ → β → Prop} {items : List α}
    {others : List β} (pairs : List.Forall₂ (Relation.Comp left right) items others) :
    ∃ middle, List.Forall₂ left items middle ∧ List.Forall₂ right middle others := by
  induction pairs with
  | nil => exact ⟨[], .nil, .nil⟩
  | cons pair _ ih =>
    obtain ⟨between, before, after⟩ := pair
    obtain ⟨middle, earlier, later⟩ := ih
    exact ⟨between :: middle, .cons before earlier, .cons after later⟩

section

variable {database : Database} {first last : List Predicate} {env : Env} {found firsts : List Env}
  (acyclic : env.Acyclic) (facts : ∀ fact ∈ database.facts, fact.IsUnmarked)
  (bindings : env.Every Term.IsUnmarked) (firstGoals : ∀ goal ∈ first, goal.IsUnmarked)
  (lastGoals : ∀ goal ∈ last, goal.IsUnmarked) (copies number : Nat)
include acyclic facts bindings firstGoals lastGoals

/-- No name of a copy is searched, so both searches may begin with any number of copies. -/
theorem sequences_search (extra fuel : Nat) :
    Sequences extra (Continues database ⟨none, extra + fuel⟩ extra last)
      (Search.listing ⟨database, ⟨none, fuel⟩, number⟩ first env)
      (Search.listing ⟨database, ⟨none, extra + fuel⟩, copies⟩ (first ++ last) env) := by
  have alongside := Alongside.start acyclic facts facts bindings
    (List.forall_mem_append.mpr ⟨firstGoals, lastGoals⟩) number copies
  have sequences : Sequences extra (Continues database ⟨none, extra + fuel⟩ extra last) _ _ :=
    sequences_listing facts extra fuel 0 alongside
  rw [renumbered_refl, Predicate.rename_id, List.map_id,
    listing_of_unlimited rfl (rfl : Limits.depth ⟨none, fuel⟩ = none) 0 0 fuel] at sequences
  exact sequences

theorem Finds.exists_parts (finds : Finds database copies (first ++ last) env found) :
    ∃ firsts, Finds database number first env firsts ∧
      ∃ parts fuel, List.Forall₂ (fun later part => Continues database ⟨none, fuel⟩ 0 last later part ∧
        part.ending = .exhausted) firsts parts ∧ found = parts.flatMap Listing.envs := by
  obtain ⟨fuel, full, rfl⟩ := finds.exists_exhausted
  have sequences :=
    sequences_search acyclic facts bindings firstGoals lastGoals copies number 0 fuel
  rw [Nat.zero_add] at sequences
  obtain ⟨fullFirst, parts, pairs, same⟩ := sequences.splits rfl full
  exact ⟨_, finds_of_exhausted fullFirst, parts, fuel, pairs, same⟩

/-- Finitely many searches come to their end with the same fuel. -/
theorem exists_finds_append (finds : Finds database number first env firsts)
    (each : ∀ later ∈ firsts, ∃ count, later.Every (Term.IsBelow count) ∧
      ∃ part, Finds database count last later part) :
    ∃ found, Finds database copies (first ++ last) env found := by
  obtain ⟨fuel, full, rfl⟩ := finds.exists_exhausted
  choose! count below part findsPart using each
  obtain ⟨extra, enough⟩ := Ends.all findsPart
  have sequences :=
    sequences_search acyclic facts bindings firstGoals lastGoals copies number extra fuel
  refine ⟨_, finds_of_exhausted (sequences.joins full ?_)⟩
  intro later member part continues
  obtain ⟨own, above, ends, -⟩ := continues.exhausted_and_envs rfl facts lastGoals (below later member)
  exact ends.mp (Search.toOption_all.mp (enough own above later member)).1

end

/-- Without a limit, a search of some goals and then others comes to its end if and only if the search
of the first goals does and, from each environment that it finds, so does a search of the others that
begins with at least as many copies as there are numbers in use there. It then finds what these
searches find, one after another: the same environments in the same order, each with the same bindings
in the same order, up to the numbers of copies. -/
theorem all_of_append (database : Database) (copies number : Nat) (first last : List Predicate)
    (env : Env) (reachable : env.Reachable) (facts : ∀ fact ∈ database.facts, fact.IsUnmarked)
    (bindings : env.Every Term.IsUnmarked) (firstGoals : ∀ goal ∈ first, goal.IsUnmarked)
    (lastGoals : ∀ goal ∈ last, goal.IsUnmarked) :
    ((∃ found, Finds database copies (first ++ last) env found) ↔
      ∃ firsts, Finds database number first env firsts ∧
        ∀ later ∈ firsts, ∃ count, later.Every (Term.IsBelow count) ∧
          ∃ part, Finds database count last later part) ∧
    ∀ found, Finds database copies (first ++ last) env found →
      ∃ firsts, Finds database number first env firsts ∧
        ∀ starts : List (Env × Nat), starts.map Prod.fst = firsts →
          (∀ start ∈ starts, start.1.Every (Term.IsBelow start.2)) →
            ∃ parts : List (List Env),
              List.Forall₂ (fun start part => Finds database start.2 last start.1 part) starts parts ∧
                List.Forall₂ SameUpToNumbers parts.flatten found := by
  have acyclic := reachable.acyclic
  refine ⟨⟨?apart, ?together⟩, ?parts⟩
  case apart =>
    rintro ⟨found, finds⟩
    obtain ⟨firsts, findsFirst, parts, fuel, pairs, -⟩ :=
      finds.exists_parts acyclic facts bindings firstGoals lastGoals copies number
    have own (later : Env) (part : Listing)
        (continues : Continues database ⟨none, fuel⟩ 0 last later part)
        (full : part.ending = .exhausted) : ∃ count, later.Every (Term.IsBelow count) ∧
          ∃ part, Finds database count last later part := by
      obtain ⟨count, below⟩ := continues.exists_below
      obtain ⟨own, -, ends, -⟩ := continues.exhausted_and_envs rfl facts lastGoals below
      exact ⟨count, below, _, finds_of_exhausted (ends.mpr full)⟩
    have each := pairs.imp fun later part pair => And.intro (own later part pair.1 pair.2) pair
    exact ⟨firsts, findsFirst, ((List.forall₂_and_left _ _).mp each).1⟩
  case together =>
    rintro ⟨firsts, finds, each⟩
    exact exists_finds_append acyclic facts bindings firstGoals lastGoals copies number finds each
  case parts =>
    intro found finds
    obtain ⟨firsts, findsFirst, parts, fuel, pairs, rfl⟩ :=
      finds.exists_parts acyclic facts bindings firstGoals lastGoals copies number
    refine ⟨firsts, findsFirst, ?_⟩
    rintro starts rfl below
    have both := (List.forall₂_and_left _ _).mpr ⟨below, List.forall₂_map_left_iff.mp pairs⟩
    have answered : List.Forall₂ (Relation.Comp
        (fun start answers => Finds database start.2 last start.1 answers)
        fun answers part => List.Forall₂ SameUpToNumbers answers part.envs) starts parts := by
      refine both.imp fun start part here => ?_
      obtain ⟨own, -, ends, same⟩ := here.2.1.exhausted_and_envs rfl facts lastGoals here.1
      exact ⟨_, finds_of_exhausted (ends.mpr here.2.2), same here.2.2⟩
    obtain ⟨answers, each, renumbered⟩ := exists_between answered
    exact ⟨answers, each, List.rel_flatten (List.forall₂_map_right_iff.mpr renumbered)⟩

/-- Ways that end where the other way does. -/
def Streets.comingIn : Predicate :=
  way (.var "U") (.var "W")

theorem all_of_append_streets :
    ∃ found starts parts, found.length = 3 ∧
      Finds Streets.database 7 ([Streets.wayFromA] ++ [Streets.comingIn]) Streets.named found ∧
      Finds Streets.database 0 [Streets.wayFromA] Streets.named (starts.map Prod.fst) ∧
      List.Forall₂ (fun start part => Finds Streets.database start.2 [Streets.comingIn] start.1 part)
        starts parts ∧
      List.Forall₂ SameUpToNumbers parts.flatten found := by
  have counted : (Search.all ⟨Streets.database, ⟨none, 5⟩, 7⟩
      ([Streets.wayFromA] ++ [Streets.comingIn]) Streets.named).1.toOption.map List.length =
        some 3 := by decide +kernel
  obtain ⟨found, answered, three⟩ := Option.map_eq_some_iff.mp counted
  obtain ⟨full, rfl⟩ := Search.toOption_all.mp answered
  have finds := finds_of_exhausted full
  obtain ⟨apart, parts⟩ := all_of_append Streets.database 7 0 [Streets.wayFromA] [Streets.comingIn]
    Streets.named Streets.reachable_named (by decide) (by decide) (by decide) (by decide)
  obtain ⟨firsts, findsFirst, split⟩ := parts _ finds
  obtain ⟨others, findsOthers, each⟩ := apart.mp ⟨_, finds⟩
  obtain rfl := findsFirst.unique findsOthers
  choose! count below _ using each
  have starts : (firsts.map fun env => (env, count env)).map Prod.fst = firsts := by
    rw [List.map_map]
    exact List.map_id firsts
  obtain ⟨parts, answered, renumbered⟩ := split _ starts (by simpa using below)
  exact ⟨_, _, parts, three, finds, starts.symm ▸ findsFirst, answered, renumbered⟩

end Backchain
