import Backchain.Proofs.Env.UnboundedUnify
import Backchain.Proofs.Search.Refinement

/-!
Searching without a bound.

The search of the program recurses on its goals and on the expansions that it may still make. The
recursion here has fuel only, spent on every call, and gives nothing when it runs out; whatever it
calls, unification included, is a recursion with fuel as well. If a search of the program is not given
up, the recursion ends with its result, for the loops are over finite lists of clauses and each branch
makes finitely many expansions. A search under a limit is never given up.
-/
set_option autoImplicit false

namespace Backchain

section

variable {σ α : Type}

/-- Makes one attempt after another as long as each comes to its full end. -/
def tryEach? (attempt : α → Progress σ → Option (Ending × Progress σ)) :
    List α → Progress σ → Option (Ending × Progress σ)
  | [], progress => some (.exhausted, progress)
  | candidate :: candidates, progress => do
    match ← attempt candidate progress with
    | (.exhausted, next) => tryEach? attempt candidates next
    | halted => return halted

/-- Goes on in the environments in which the goal is this fact. -/
def useFact? (fuel : Nat) (goOn : Progress σ → Option (Ending × Progress σ))
    (goal fact : Predicate) : Progress σ → Option (Ending × Progress σ)
  | ⟨env, copies, seen⟩ => do
    let mark := env.size
    match ← env.unifyPredicates? fuel goal fact with
    | (false, env) => return (.exhausted, ⟨env, copies, seen⟩)
    | (true, env) => return Progress.backTo mark (← goOn ⟨env, copies, seen⟩)

/-- Goes on with the goals of a copy of this rule in the environments in which the goal is the copy's
head. -/
def useRule? (fuel : Nat) (limits : Limits) (expansions : Nat)
    (goOn : List Predicate → Progress σ → Option (Ending × Progress σ)) (goal : Predicate)
    (rule : Rule) : Progress σ → Option (Ending × Progress σ)
  | ⟨env, copies, seen⟩ => do
    let mark := env.size
    let copies := copies + 1
    match ← env.unifyPredicates? fuel goal (rule.copiedHead copies) with
    | (false, env) => return (.exhausted, ⟨env, copies, seen⟩)
    | (true, env) =>
      match limits.reached expansions with
      | some limit => return (.tooDeep limit, ⟨env, copies, seen⟩)
      | none => return Progress.backTo mark (← goOn (rule.copiedGoals copies) ⟨env, copies, seen⟩)

/-- Searches goals on a branch that has made `expansions` rule expansions. Of the limits, only the one
on the expansions counts. -/
def search? (database : Database) (limits : Limits) (visitor : Visitor σ) :
    Nat → Nat → List Predicate → Progress σ → Option (Ending × Progress σ)
  | 0, _, _, _ => none
  | _ + 1, _, [], progress => some (progress.visit visitor)
  | fuel + 1, expansions, goal :: rest, progress => do
    let byFact := useFact? fuel (search? database limits visitor fuel expansions rest) goal
    match ← tryEach? byFact (database.factsOf goal.signature) progress with
    | (.exhausted, next) =>
      let byRule := useRule? fuel limits expansions
        (fun goals => search? database limits visitor fuel (expansions + 1) (goals ++ rest)) goal
      tryEach? byRule (database.rulesOf goal.signature) next
    | halted => return halted

/-! ## Searches that are not given up -/

/-- Unless it is given up, a part of the search is what the recursion ends with. It leaves acyclic
environments behind, so that what comes next ends too. -/
structure Finishes (run : Progress σ → Ending × Progress σ)
    (attempt : Nat → Progress σ → Option (Ending × Progress σ)) : Prop where
  acyclic : ∀ progress, progress.env.Acyclic → (run progress).2.env.Acyclic
  ends : ∀ progress, progress.env.Acyclic → (run progress).1 ≠ .unfinished →
    Ends (attempt · progress) (run progress)

variable {visitor : Visitor σ}

theorem finishes_visit :
    Finishes (fun progress => progress.visit visitor)
      fun _ progress => some (progress.visit visitor) := by
  constructor
  · intro progress acyclic
    rw [Progress.visit]
    split <;> exact acyclic
  · exact fun progress _ _ => .pure (progress.visit visitor)

theorem Finishes.backTo {run : Progress σ → Ending × Progress σ}
    {attempt : Nat → Progress σ → Option (Ending × Progress σ)} (within : Finishes run attempt)
    (mark : Nat) :
    Finishes (fun progress => Progress.backTo mark (run progress)) fun fuel progress =>
      (attempt fuel progress).map (Progress.backTo mark) := by
  constructor
  · intro progress acyclic
    exact (Env.extends_undoTo _ mark).acyclic (within.acyclic progress acyclic)
  · intro progress acyclic finished
    exact (within.ends progress acyclic finished).map _

theorem Finishes.succ {run : Progress σ → Ending × Progress σ}
    {attempt : Nat → Progress σ → Option (Ending × Progress σ)}
    (later : Finishes run fun fuel => attempt (fuel + 1)) : Finishes run attempt :=
  ⟨later.acyclic, fun progress acyclic finished => .succ (later.ends progress acyclic finished)⟩

theorem Finishes.andThen {run next : Progress σ → Ending × Progress σ}
    {attempt attemptNext : Nat → Progress σ → Option (Ending × Progress σ)}
    (first : Finishes run attempt) (later : Finishes next attemptNext) :
    Finishes
      (fun progress =>
        match run progress with
        | (.exhausted, progress) => next progress
        | halted => halted)
      fun fuel progress => do
        match ← attempt fuel progress with
        | (.exhausted, progress) => attemptNext fuel progress
        | halted => return halted := by
  constructor
  · intro progress acyclic
    have acyclicNext := first.acyclic progress acyclic
    generalize run progress = outcome at acyclicNext
    obtain ⟨ending, progress⟩ := outcome
    cases ending with
    | exhausted => exact later.acyclic progress acyclicNext
    | _ => exact acyclicNext
  · intro progress acyclic finished
    have acyclicNext := first.acyclic progress acyclic
    have ends := first.ends progress acyclic
    generalize run progress = outcome at acyclicNext ends finished
    obtain ⟨ending, progress⟩ := outcome
    cases ending with
    | exhausted => exact (ends (by simp)).bind (later.ends progress acyclicNext finished)
    | unfinished => exact absurd rfl finished
    | _ => exact (ends (by simp)).bind (.pure _)

theorem finishes_tryEach {run : α → Progress σ → Ending × Progress σ}
    {attempt : Nat → α → Progress σ → Option (Ending × Progress σ)} (candidates : List α)
    (each : ∀ candidate, Finishes (run candidate) fun fuel => attempt fuel candidate) :
    Finishes (tryEach run candidates) fun fuel => tryEach? (attempt fuel) candidates := by
  induction candidates with
  | nil => exact ⟨fun _ acyclic => acyclic, fun _ _ _ => .pure _⟩
  | cons candidate candidates ih => exact (each candidate).andThen ih

theorem finishes_useFact {run : Progress σ → Ending × Progress σ}
    {attempt : Nat → Progress σ → Option (Ending × Progress σ)} (later : Finishes run attempt)
    (goal fact : Predicate) :
    Finishes (useFact run goal fact) fun fuel => useFact? fuel (attempt fuel) goal fact := by
  constructor
  · rintro ⟨env, copies, seen⟩ acyclic
    simp only [useFact, Env.unifyPredicates_eq]
    cases unified : env.unifiedPredicates? goal fact with
    | none => exact acyclic
    | some extended =>
      have acyclicNext := Env.acyclic_of_unifiedPredicates acyclic unified
      exact (later.backTo env.size).acyclic ⟨extended, copies, seen⟩ acyclicNext
  · rintro ⟨env, copies, seen⟩ acyclic finished
    have met := Env.ends_unifyPredicates acyclic goal fact
    simp only [useFact, Env.unifyPredicates_eq] at met finished ⊢
    apply met.bind
    cases unified : env.unifiedPredicates? goal fact with
    | none => exact .pure _
    | some extended =>
      have acyclicNext := Env.acyclic_of_unifiedPredicates acyclic unified
      rw [unified] at finished
      exact (later.ends ⟨extended, copies, seen⟩ acyclicNext finished).bind (.pure _)

theorem finishes_useRule {run : List Predicate → Progress σ → Ending × Progress σ}
    {attempt : Nat → List Predicate → Progress σ → Option (Ending × Progress σ)}
    (later : ∀ goals, Finishes (run goals) fun fuel => attempt fuel goals) (limits : Limits)
    (expansions : Nat) (goal : Predicate) (rule : Rule) :
    Finishes (useRule limits expansions run goal rule) fun fuel =>
      useRule? fuel limits expansions (attempt fuel) goal rule := by
  constructor
  · rintro ⟨env, copies, seen⟩ acyclic
    simp only [useRule, Env.unifyPredicates_eq]
    cases unified : env.unifiedPredicates? goal (rule.copiedHead (copies + 1)) with
    | none => exact acyclic
    | some extended =>
      have acyclicNext := Env.acyclic_of_unifiedPredicates acyclic unified
      cases limits.reached expansions with
      | some limit => exact acyclicNext
      | none =>
        exact ((later _).backTo env.size).acyclic ⟨extended, copies + 1, seen⟩ acyclicNext
  · rintro ⟨env, copies, seen⟩ acyclic finished
    have met := Env.ends_unifyPredicates acyclic goal (rule.copiedHead (copies + 1))
    simp only [useRule, Env.unifyPredicates_eq] at met finished ⊢
    apply met.bind
    cases unified : env.unifiedPredicates? goal (rule.copiedHead (copies + 1)) with
    | none => exact .pure _
    | some extended =>
      have acyclicNext := Env.acyclic_of_unifiedPredicates acyclic unified
      rw [unified] at finished
      cases reached : limits.reached expansions with
      | some limit => exact .pure _
      | none =>
        rw [reached] at finished
        exact ((later _).ends ⟨extended, copies + 1, seen⟩ acyclicNext finished).bind (.pure _)

theorem finishes_searchGoals {database : Database} {limits : Limits} {expansions : Nat}
    {expand : List Predicate → Progress σ → Ending × Progress σ}
    (later : ∀ goals, Finishes (expand goals) fun fuel =>
      search? database limits visitor fuel (expansions + 1) goals) (goals : List Predicate) :
    Finishes (searchGoals database limits visitor expansions expand goals) fun fuel =>
      search? database limits visitor fuel expansions goals := by
  induction goals with
  | nil => exact .succ finishes_visit
  | cons goal rest ih =>
    have facts := finishes_tryEach (database.factsOf goal.signature) fun fact =>
      finishes_useFact ih goal fact
    have rules := finishes_tryEach (database.rulesOf goal.signature) fun rule =>
      finishes_useRule (fun goals => later (goals ++ rest)) limits expansions goal rule
    exact .succ (facts.andThen rules)

theorem finishes_search (database : Database) (limits : Limits) (visitor : Visitor σ)
    (most expansions : Nat) (goals : List Predicate) :
    Finishes (search database limits visitor most expansions goals) fun fuel =>
      search? database limits visitor fuel expansions goals := by
  induction most generalizing expansions goals with
  | zero =>
    have abandoned : ∀ goals, Finishes (fun progress => (.unfinished, progress)) fun fuel =>
        search? database limits visitor fuel (expansions + 1) goals :=
      fun _ => ⟨fun _ acyclic => acyclic, fun _ _ finished => absurd rfl finished⟩
    exact finishes_searchGoals abandoned goals
  | succ most ih => exact finishes_searchGoals (ih (expansions + 1)) goals

/-! ## Searches under a limit -/

/-- A search ends as its listing does, unless the visitor stops it. -/
theorem search_ending (database : Database) (limits : Limits) (visitor : Visitor σ)
    (fuel expansions : Nat) (goals : List Predicate) (env : Env) (copies : Nat) (seen : σ) :
    let run := search database limits visitor fuel expansions goals ⟨env, copies, seen⟩
    run.1 = (listing database limits fuel expansions goals env copies).ending ∨
      run.1 = .stopped := by
  intro run
  have mirrors := search_mirrors database limits visitor fuel expansions goals env ⟨copies, seen⟩
  have shows := copySearch_shows database limits visitor fuel expansions goals env ⟨copies, seen⟩
  have same : run.1 = _ := mirrors.ending.trans (congrArg Prod.fst shows)
  rw [same]
  exact Listing.showFound_ending visitor _ _ _ seen

/-- A search whose limit is within its fuel is not given up. -/
theorem search_ne_unfinished {limits : Limits} {limit fuel expansions : Nat}
    (limited : limit ∈ limits.depth) (enough : limit ≤ expansions + fuel) (database : Database)
    (visitor : Visitor σ) (goals : List Predicate) (env : Env) (copies : Nat) (seen : σ) :
    (search database limits visitor fuel expansions goals ⟨env, copies, seen⟩).1 ≠ .unfinished := by
  have listed : (listing database limits fuel expansions goals env copies).ending ≠
      .unfinished := by
    apply listing_ending (· ≠ .unfinished)
    · simp
    · simp
    · intro short
      exact absurd (short limit limited) (Nat.not_lt_of_le enough)
  rcases search_ending database limits visitor fuel expansions goals env copies seen with
    same | stopped
  · rwa [same]
  · simp [stopped]

end

end Backchain
