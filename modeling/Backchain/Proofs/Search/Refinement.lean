import Backchain.Proofs.Env.Unification
import Backchain.Proofs.Search.Copying

/-!
The search with one environment refines the search with copies.

A part of the search mirrors a branch of the reference search if it ends alike with the same tally,
gives back its environment whenever it was not cut off, and otherwise at most adds bindings to it.
Every exit of the search keeps this: a branch that is taken back is back at its mark, whatever was
bound in between.
-/
set_option autoImplicit false

namespace Backchain

variable {σ α : Type}

/-- How a part of a search from an environment and a branch of the reference search agree. -/
structure Mirrors (env : Env) (run : Ending × Progress σ) (copied : Ending × Tally σ) : Prop where
  ending : run.1 = copied.1
  copies : run.2.copies = copied.2.copies
  seen : run.2.seen = copied.2.seen
  restored : run.1 = .exhausted ∨ run.1 = .stopped → run.2.env = env
  grows : run.2.env.Extends env

theorem Mirrors.same (env : Env) (ending : Ending) (tally : Tally σ) :
    Mirrors env (ending, ⟨env, tally.copies, tally.seen⟩) (ending, tally) :=
  ⟨rfl, rfl, rfl, fun _ => rfl, .refl env⟩

theorem Mirrors.progress_eq {env : Env} {progress : Progress σ} {tally : Tally σ}
    (mirrors : Mirrors env (.exhausted, progress) (.exhausted, tally)) :
    progress = ⟨env, tally.copies, tally.seen⟩ := by
  obtain ⟨_, _, _⟩ := progress
  rw [Progress.mk.injEq]
  exact ⟨mirrors.restored (.inl rfl), mirrors.copies, mirrors.seen⟩

theorem Mirrors.backTo {env extended : Env} {run : Ending × Progress σ} {copied : Ending × Tally σ}
    (mirrors : Mirrors extended run copied) (extends_ : extended.Extends env) :
    Mirrors env (Progress.backTo env.size run) copied := by
  obtain ⟨ending, progress⟩ := run
  have back : progress.env.undoTo env.size = env := (mirrors.grows.trans extends_).undoTo
  refine ⟨mirrors.ending, mirrors.copies, mirrors.seen, fun _ => back, ?_⟩
  rw [Progress.backTo, back]
  exact .refl env

variable {visitor : Visitor σ}

theorem mirrors_tryEach {env : Env} {attempt : α → Progress σ → Ending × Progress σ}
    {branch : α → Branch σ} (candidates : List α)
    (each : ∀ candidate ∈ candidates, ∀ tally : Tally σ,
      Mirrors env (attempt candidate ⟨env, tally.copies, tally.seen⟩) (branch candidate tally))
    (tally : Tally σ) :
    Mirrors env (tryEach attempt candidates ⟨env, tally.copies, tally.seen⟩)
      (inTurn (candidates.map branch) tally) := by
  induction candidates generalizing tally with
  | nil => exact .same env .exhausted tally
  | cons candidate candidates ih =>
    have first := each candidate List.mem_cons_self tally
    rw [List.map_cons, tryEach, inTurn]
    generalize attempt candidate ⟨env, tally.copies, tally.seen⟩ = run at first
    generalize branch candidate tally = copied at first
    obtain ⟨ending, progress⟩ := run
    obtain ⟨other, next⟩ := copied
    obtain rfl : ending = other := first.ending
    cases ending with
    | exhausted =>
      rw [first.progress_eq]
      exact ih (fun other member => each other (List.mem_cons_of_mem _ member)) next
    | _ => exact first

theorem mirrors_useFact {goOn : Progress σ → Ending × Progress σ} {branch : Env → Branch σ}
    (later : ∀ (env : Env) (tally : Tally σ),
      Mirrors env (goOn ⟨env, tally.copies, tally.seen⟩) (branch env tally))
    (env : Env) (goal fact : Predicate) (tally : Tally σ) :
    Mirrors env (useFact goOn goal fact ⟨env, tally.copies, tally.seen⟩)
      (factBranch branch env goal fact tally) := by
  simp only [useFact, factBranch, Env.unifyPredicates_eq]
  cases unified : env.unifiedPredicates? goal fact with
  | none => exact .same env .exhausted tally
  | some extended => exact (later extended tally).backTo (Env.extends_of_unifiedPredicates unified)

theorem mirrors_useRule {goOn : List Predicate → Progress σ → Ending × Progress σ}
    {branch : List Predicate → Env → Branch σ} (limits : Limits) (expansions : Nat)
    (later : ∀ (goals : List Predicate) (env : Env) (tally : Tally σ),
      Mirrors env (goOn goals ⟨env, tally.copies, tally.seen⟩) (branch goals env tally))
    (env : Env) (goal : Predicate) (rule : Rule) (tally : Tally σ) :
    Mirrors env (useRule limits expansions goOn goal rule ⟨env, tally.copies, tally.seen⟩)
      (ruleBranch limits expansions branch env goal rule tally) := by
  simp only [useRule, ruleBranch, Env.unifyPredicates_eq]
  cases unified : env.unifiedPredicates? goal (rule.copiedHead (tally.copies + 1)) with
  | none => exact .same env .exhausted { tally with copies := tally.copies + 1 }
  | some extended =>
    have grows := Env.extends_of_unifiedPredicates unified
    cases limits.reached expansions with
    | some limit =>
      refine ⟨rfl, rfl, rfl, ?_, grows⟩
      rintro (cut | cut) <;> cases cut
    | none => exact (later _ extended { tally with copies := tally.copies + 1 }).backTo grows

theorem mirrors_searchGoals {database : Database} {limits : Limits} {expansions : Nat}
    {expand : List Predicate → Progress σ → Ending × Progress σ}
    {branch : List Predicate → Env → Branch σ}
    (later : ∀ (goals : List Predicate) (env : Env) (tally : Tally σ),
      Mirrors env (expand goals ⟨env, tally.copies, tally.seen⟩) (branch goals env tally))
    (goals : List Predicate) (env : Env) (tally : Tally σ) :
    Mirrors env
      (searchGoals database limits visitor expansions expand goals ⟨env, tally.copies, tally.seen⟩)
      (copyGoals database limits visitor expansions branch goals env tally) := by
  induction goals generalizing env tally with
  | nil =>
    simp only [searchGoals, Progress.visit, copyGoals, showBranch]
    cases visitor env tally.seen with
    | yield seen => exact .same env .exhausted { tally with seen }
    | done seen => exact .same env .stopped { tally with seen }
  | cons goal rest ih =>
    have facts := mirrors_tryEach (database.factsOf goal.signature)
      (fun fact _ => mirrors_useFact ih env goal fact) tally
    simp only [searchGoals, copyGoals]
    rw [inTurn_append]
    generalize tryEach _ (database.factsOf goal.signature) _ = run at facts
    generalize inTurn ((database.factsOf goal.signature).map _) tally = copied at facts
    obtain ⟨ending, progress⟩ := run
    obtain ⟨other, next⟩ := copied
    obtain rfl : ending = other := facts.ending
    cases ending with
    | exhausted =>
      rw [facts.progress_eq]
      exact mirrors_tryEach (database.rulesOf goal.signature)
        (fun rule _ => mirrors_useRule limits expansions (fun goals => later (goals ++ rest)) env
          goal rule) next
    | _ => exact facts

theorem search_mirrors (database : Database) (limits : Limits) (visitor : Visitor σ)
    (fuel expansions : Nat) (goals : List Predicate) (env : Env) (tally : Tally σ) :
    Mirrors env
      (search database limits visitor fuel expansions goals ⟨env, tally.copies, tally.seen⟩)
      (copySearch database limits visitor fuel expansions goals env tally) := by
  induction fuel generalizing expansions goals env tally with
  | zero =>
    have abandoned : ∀ (_ : List Predicate) (env : Env) (tally : Tally σ),
        Mirrors env (.unfinished, ⟨env, tally.copies, tally.seen⟩) (.unfinished, tally) :=
      fun _ env tally => .same env .unfinished tally
    exact mirrors_searchGoals abandoned goals env tally
  | succ fuel ih => exact mirrors_searchGoals (ih (expansions + 1)) goals env tally

/-! ## What a visitor is shown -/

/-- Keeps what a visitor is shown, in order, beside what it collects. -/
def Visitor.recorded (visitor : Visitor σ) : Visitor (List Env × σ) := fun env (shown, seen) =>
  match visitor env seen with
  | .yield seen => .yield (shown ++ [env], seen)
  | .done seen => .done (shown ++ [env], seen)

/-- The environments that the search shows to a visitor, in order. -/
def shown (database : Database) (limits : Limits) (visitor : Visitor σ) (fuel expansions : Nat)
    (goals : List Predicate) (env : Env) (copies : Nat) (seen : σ) : List Env :=
  (search database limits (Visitor.recorded visitor) fuel expansions goals
    ⟨env, copies, ([], seen)⟩).2.seen.1

/-- The environments that the reference search shows to a visitor, in order. -/
def copyShown (database : Database) (limits : Limits) (visitor : Visitor σ) (fuel expansions : Nat)
    (goals : List Predicate) (env : Env) (copies : Nat) (seen : σ) : List Env :=
  (copySearch database limits (Visitor.recorded visitor) fuel expansions goals env
    ⟨copies, ([], seen)⟩).2.seen.1

/-- The search with one environment and its trail shows the visitor what the reference search with
copies shows, ends like it and makes as many rule copies. Whenever it is not cut off, it gives back
the environment it was given; otherwise it may have added bindings at the end. -/
theorem search_refines_copySearch (database : Database) (limits : Limits) (visitor : Visitor σ)
    (fuel expansions : Nat) (goals : List Predicate) (env : Env) (copies : Nat) (seen : σ) :
    let run := search database limits visitor fuel expansions goals ⟨env, copies, seen⟩
    let reference := copySearch database limits visitor fuel expansions goals env ⟨copies, seen⟩
    shown database limits visitor fuel expansions goals env copies seen =
        copyShown database limits visitor fuel expansions goals env copies seen ∧
      run.1 = reference.1 ∧ run.2.seen = reference.2.seen ∧ run.2.copies = reference.2.copies ∧
      (run.1 = .exhausted ∨ run.1 = .stopped → run.2.env = env) ∧
      env.toList <+: run.2.env.toList := by
  intro run reference
  have mirrors := search_mirrors database limits visitor fuel expansions goals env ⟨copies, seen⟩
  have recorded := search_mirrors database limits (Visitor.recorded visitor) fuel expansions goals
    env ⟨copies, ([], seen)⟩
  exact ⟨congrArg Prod.fst recorded.seen, mirrors.ending, mirrors.seen, mirrors.copies,
    mirrors.restored, mirrors.grows⟩

/-- As many of the environments as the visitor wants to see. -/
def Visitor.viewed (visitor : Visitor σ) : List Env → σ → List Env
  | [], _ => []
  | env :: envs, seen =>
    match visitor env seen with
    | .yield seen => env :: viewed visitor envs seen
    | .done _ => [env]

theorem Visitor.viewed_prefix (visitor : Visitor σ) (envs : List Env) (seen : σ) :
    visitor.viewed envs seen <+: envs := by
  induction envs generalizing seen with
  | nil => exact List.nil_prefix
  | cons env envs ih =>
    rw [viewed]
    cases visitor env seen with
    | yield next => exact (List.prefix_cons_inj env).mpr (ih next)
    | done next => exact ⟨envs, rfl⟩

/-- Where there is more to see, a visitor that was not content sees more. -/
theorem Visitor.viewed_mono (visitor : Visitor σ) {first envs : List Env} (part : first <+: envs)
    (seen : σ) : visitor.viewed first seen <+: visitor.viewed envs seen := by
  obtain ⟨rest, rfl⟩ := part
  induction first generalizing seen with
  | nil => exact List.nil_prefix
  | cons env first ih =>
    rw [List.cons_append, viewed, viewed]
    cases visitor env seen with
    | yield next => exact (List.prefix_cons_inj env).mpr (ih next)
    | done next => exact List.prefix_rfl

/-- Recording what a visitor is shown does not change how a listing is shown to it. -/
theorem showFound_recorded (visitor : Visitor σ) (ending : Ending) (copies : Nat)
    (found : List (Env × Nat)) (before : List Env) (seen : σ) :
    Listing.showFound (Visitor.recorded visitor) ending copies found (before, seen) =
      ((Listing.showFound visitor ending copies found seen).1,
        ⟨(Listing.showFound visitor ending copies found seen).2.copies,
          (before ++ visitor.viewed (found.map Prod.fst) seen,
            (Listing.showFound visitor ending copies found seen).2.seen)⟩) := by
  induction found generalizing before seen with
  | nil => simp [Listing.showFound, Visitor.viewed]
  | cons entry found ih =>
    obtain ⟨env, number⟩ := entry
    simp only [Listing.showFound, Visitor.recorded, List.map_cons, Visitor.viewed]
    cases visitor env seen with
    | yield next =>
      have later := ih (before ++ [env]) next
      rwa [List.append_assoc] at later
    | done next => rfl

namespace Search

def listing (s : Search) (goals : List Predicate) (env : Env) : Listing :=
  Backchain.listing s.database s.limits s.limits.fuel 0 goals env s.copies

theorem each_eq (s : Search) (visitor : Visitor σ) (goals : List Predicate) (env : Env)
    (seen : σ) :
    s.each visitor goals env seen =
      (((s.listing goals env).showTo visitor seen).1,
        ((s.listing goals env).showTo visitor seen).2.seen,
        { s with copies := ((s.listing goals env).showTo visitor seen).2.copies }) := by
  have mirrors := search_mirrors s.database s.limits visitor s.limits.fuel 0 goals env
    ⟨s.copies, seen⟩
  rw [copySearch_shows s.database s.limits visitor s.limits.fuel 0 goals env] at mirrors
  unfold each
  rw [Prod.mk.injEq, Prod.mk.injEq]
  refine ⟨mirrors.ending, mirrors.seen, ?_⟩
  exact congrArg (fun copies => { s with copies }) mirrors.copies

/-- The environments that the search shows to a visitor, in order. -/
def delivered (s : Search) (visitor : Visitor σ) (goals : List Predicate) (env : Env) (seen : σ) :
    List Env :=
  (s.each (Visitor.recorded visitor) goals env ([], seen)).2.1.1

theorem delivered_eq (s : Search) (visitor : Visitor σ) (goals : List Predicate) (env : Env)
    (seen : σ) :
    s.delivered visitor goals env seen = visitor.viewed (s.listing goals env).envs seen := by
  rw [delivered, each_eq, Listing.showTo, showFound_recorded]
  rfl

theorem delivered_prefix (s : Search) (visitor : Visitor σ) (goals : List Predicate) (env : Env)
    (seen : σ) : s.delivered visitor goals env seen <+: (s.listing goals env).envs := by
  rw [delivered_eq]
  exact visitor.viewed_prefix _ seen

/-- A visitor that keeps something of every environment is shown all of them. -/
theorem showFound_of_yield {α : Type} {visitor : Visitor (Array α)} {kept : Env → α}
    (asked : ∀ env seen, visitor env seen = .yield (seen.push (kept env))) (ending : Ending)
    (copies : Nat) (found : List (Env × Nat)) (seen : Array α) :
    Listing.showFound visitor ending copies found seen =
      (ending, ⟨copies, seen ++ found.map fun entry => kept entry.1⟩) := by
  induction found generalizing seen with
  | nil => simp [Listing.showFound]
  | cons entry found ih =>
    obtain ⟨env, number⟩ := entry
    rw [Listing.showFound, asked]
    simp [ih]

theorem showFound_collector_none (ending : Ending) (copies : Nat) (found : List (Env × Nat))
    (seen : Array Env) :
    Listing.showFound (collector none) ending copies found seen =
      (ending, ⟨copies, seen ++ found.map Prod.fst⟩) := by
  have asked : ∀ (env : Env) (seen : Array Env),
      collector none env seen = .yield (seen.push env) := fun env seen => by simp [collector]
  exact showFound_of_yield asked ending copies found seen

/-- Collecting everything gives the whole listing, if it has come to its full end. -/
theorem all_eq (s : Search) (goals : List Predicate) (env : Env) :
    (s.all goals env).1 = (s.listing goals env).ending.answer (s.listing goals env).envs := by
  simp only [all, collect, each_eq, Listing.showTo, showFound_collector_none]
  simp [Listing.envs]

theorem all_next (s : Search) (goals : List Predicate) (env : Env) :
    (s.all goals env).2 = { s with copies := (s.listing goals env).copies } := by
  simp only [all, collect, each_eq, Listing.showTo, showFound_collector_none]

/-- There is an answer about a whole listing only after a full end. -/
theorem exhausted_of_answer {α : Type} {s : Search} {goals : List Predicate} {env : Env}
    {result answer : α} (finished : (s.listing goals env).ending.answer result = .ok answer) :
    (s.listing goals env).ending = .exhausted ∧ result = answer := by
  have running := listing_ne_stopped s.database s.limits s.limits.fuel 0 goals env s.copies
  cases ended : (s.listing goals env).ending with
  | exhausted =>
    rw [ended, Ending.answer, Except.ok.injEq] at finished
    exact ⟨rfl, finished⟩
  | stopped => exact absurd ended running
  | tooDeep | unfinished =>
    rw [ended] at finished
    cases finished

theorem first?_eq (s : Search) (goals : List Predicate) (env : Env) :
    (s.first? goals env).1 =
      match (s.listing goals env).envs with
      | [] => (s.listing goals env).ending.answer none
      | first :: _ => .ok (some first) := by
  simp only [first?, collect, each_eq, Listing.showTo, Listing.envs]
  cases (s.listing goals env).found with
  | nil => rfl
  | cons entry found =>
    obtain ⟨first, number⟩ := entry
    have asked : collector (some 1) first #[] = .done #[first] := rfl
    simp only [Listing.showFound, asked]
    rfl

end Search

end Backchain
