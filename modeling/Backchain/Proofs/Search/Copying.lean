import Backchain.Search

/-!
Searching with copies of the environment.

The reference search gives every branch an environment of its own, the extension that unification
returns, and never takes a binding back. A listing is the same search without a visitor: everything
that is found, in order, each with the number of rule copies made by then, and how the search ends.
Showing a listing to a visitor, as far as the visitor wants to see it, is the reference search.
-/
set_option autoImplicit false

namespace Backchain

/-- What the branches of a reference search share: the number of rule copies made so far, and what
the visitor has collected. -/
structure Tally (σ : Type) where
  copies : Nat
  seen : σ

/-- A branch, which changes nothing but the tally. -/
abbrev Branch (σ : Type) :=
  Tally σ → Ending × Tally σ

section

variable {σ : Type}

def inTurn : List (Branch σ) → Branch σ
  | [], tally => (.exhausted, tally)
  | branch :: branches, tally =>
    match branch tally with
    | (.exhausted, next) => inTurn branches next
    | halted => halted

def factBranch (goOn : Env → Branch σ) (env : Env) (goal fact : Predicate) : Branch σ := fun tally =>
  match env.unifiedPredicates? goal fact with
  | none => (.exhausted, tally)
  | some extended => goOn extended tally

def ruleBranch (limits : Limits) (expansions : Nat) (goOn : List Predicate → Env → Branch σ)
    (env : Env) (goal : Predicate) (rule : Rule) : Branch σ := fun tally =>
  let number := tally.copies + 1
  match env.unifiedPredicates? goal (rule.copiedHead number) with
  | none => (.exhausted, { tally with copies := number })
  | some extended =>
    match limits.reached expansions with
    | some limit => (.tooDeep limit, { tally with copies := number })
    | none => goOn (rule.copiedGoals number) extended { tally with copies := number }

def showBranch (visitor : Visitor σ) (env : Env) : Branch σ := fun tally =>
  match visitor env tally.seen with
  | .yield seen => (.exhausted, { tally with seen })
  | .done seen => (.stopped, { tally with seen })

def copyGoals (database : Database) (limits : Limits) (visitor : Visitor σ) (expansions : Nat)
    (expand : List Predicate → Env → Branch σ) : List Predicate → Env → Branch σ
  | [], env => showBranch visitor env
  | goal :: rest, env =>
    let byFact := factBranch (copyGoals database limits visitor expansions expand rest) env goal
    let byRule := ruleBranch limits expansions (fun goals => expand (goals ++ rest)) env goal
    inTurn ((database.factsOf goal.signature).map byFact ++
      (database.rulesOf goal.signature).map byRule)

/-- The reference search. -/
def copySearch (database : Database) (limits : Limits) (visitor : Visitor σ) :
    Nat → Nat → List Predicate → Env → Branch σ
  | 0, expansions, goals, env =>
    copyGoals database limits visitor expansions (fun _ _ tally => (.unfinished, tally)) goals env
  | fuel + 1, expansions, goals, env =>
    copyGoals database limits visitor expansions
      (copySearch database limits visitor fuel (expansions + 1)) goals env

end

/-- All that a search finds if nothing stops it. -/
structure Listing where
  /-- The environments in search order, each with the number of copies made by then. -/
  found : List (Env × Nat)
  ending : Ending
  copies : Nat

namespace Listing

def nothing (copies : Nat) : Listing :=
  ⟨[], .exhausted, copies⟩

def andThen (first : Listing) (next : Nat → Listing) : Listing :=
  match first.ending with
  | .exhausted =>
    let later := next first.copies
    ⟨first.found ++ later.found, later.ending, later.copies⟩
  | _ => first

def envs (listing : Listing) : List Env :=
  listing.found.map Prod.fst

section

variable {first : Listing} {next : Nat → Listing}

theorem andThen_of_exhausted (full : first.ending = .exhausted) :
    first.andThen next = ⟨first.found ++ (next first.copies).found, (next first.copies).ending,
      (next first.copies).copies⟩ := by
  rw [andThen, full]

theorem andThen_of_halted (halted : first.ending ≠ .exhausted) : first.andThen next = first := by
  unfold andThen
  split
  next full => exact absurd full halted
  next => rfl

theorem ending_andThen_eq_exhausted : (first.andThen next).ending = .exhausted ↔
    first.ending = .exhausted ∧ (next first.copies).ending = .exhausted := by
  by_cases full : first.ending = .exhausted
  · rw [andThen_of_exhausted full, and_iff_right full]
  · rw [andThen_of_halted full]
    exact iff_of_false full fun both => full both.1

theorem envs_andThen (full : first.ending = .exhausted) :
    (first.andThen next).envs = first.envs ++ (next first.copies).envs := by
  rw [andThen_of_exhausted full, envs, List.map_append]
  rfl

end

section

variable {σ : Type}

def showFound (visitor : Visitor σ) (ending : Ending) (copies : Nat) :
    List (Env × Nat) → σ → Ending × Tally σ
  | [], seen => (ending, ⟨copies, seen⟩)
  | (env, number) :: found, seen =>
    match visitor env seen with
    | .yield seen => showFound visitor ending copies found seen
    | .done seen => (.stopped, ⟨number, seen⟩)

/-- Shows what was found to a visitor, as far as the visitor wants to see it. -/
def showTo (listing : Listing) (visitor : Visitor σ) (seen : σ) : Ending × Tally σ :=
  showFound visitor listing.ending listing.copies listing.found seen

theorem showFound_append (visitor : Visitor σ) (ending : Ending) (copies middle : Nat)
    (first second : List (Env × Nat)) (seen : σ) :
    showFound visitor ending copies (first ++ second) seen =
      match showFound visitor .exhausted middle first seen with
      | (.exhausted, tally) => showFound visitor ending copies second tally.seen
      | halted => halted := by
  induction first generalizing seen with
  | nil => rfl
  | cons entry first ih =>
    obtain ⟨env, number⟩ := entry
    simp only [List.cons_append, showFound]
    cases visitor env seen with
    | yield seen => exact ih seen
    | done seen => rfl

theorem copies_of_showFound {visitor : Visitor σ} {copies : Nat} {found : List (Env × Nat)}
    {seen : σ} {tally : Tally σ}
    (shown : showFound visitor .exhausted copies found seen = (.exhausted, tally)) :
    tally.copies = copies := by
  induction found generalizing seen with
  | nil =>
    cases shown
    rfl
  | cons entry found ih =>
    obtain ⟨env, number⟩ := entry
    rw [showFound] at shown
    cases asked : visitor env seen with
    | yield next =>
      rw [asked] at shown
      exact ih shown
    | done next =>
      rw [asked] at shown
      cases shown

/-- What is shown ends as the listing does, unless the visitor stops. -/
theorem showFound_ending (visitor : Visitor σ) (ending : Ending) (copies : Nat)
    (found : List (Env × Nat)) (seen : σ) :
    (showFound visitor ending copies found seen).1 = ending ∨
      (showFound visitor ending copies found seen).1 = .stopped := by
  induction found generalizing seen with
  | nil => exact .inl rfl
  | cons entry found ih =>
    obtain ⟨env, number⟩ := entry
    rw [showFound]
    cases visitor env seen with
    | yield seen => exact ih seen
    | done seen => exact .inr rfl

theorem showFound_ne_exhausted {visitor : Visitor σ} {ending : Ending} {copies : Nat}
    (halted : ending ≠ .exhausted) (found : List (Env × Nat)) (seen : σ) :
    (showFound visitor ending copies found seen).1 ≠ .exhausted := by
  rcases showFound_ending visitor ending copies found seen with same | stopped
  · rwa [same]
  · simp [stopped]

theorem showTo_andThen (first : Listing) (next : Nat → Listing) (visitor : Visitor σ) (seen : σ) :
    (first.andThen next).showTo visitor seen =
      match first.showTo visitor seen with
      | (.exhausted, tally) => (next tally.copies).showTo visitor tally.seen
      | halted => halted := by
  obtain ⟨found, ending, copies⟩ := first
  by_cases full : ending = .exhausted
  · subst full
    simp only [andThen, showTo]
    rw [showFound_append visitor _ _ copies]
    cases shown : showFound visitor .exhausted copies found seen with
    | mk ended tally =>
      cases ended with
      | exhausted => simp only [copies_of_showFound shown]
      | _ => rfl
  · have same : andThen ⟨found, ending, copies⟩ next = ⟨found, ending, copies⟩ :=
      andThen_of_halted full
    have halts : (showFound visitor ending copies found seen).1 ≠ .exhausted :=
      showFound_ne_exhausted full found seen
    rw [same]
    simp only [showTo]
    split
    next tally shown =>
      rw [shown] at halts
      exact absurd rfl halts
    next => rfl

end

end Listing

section

variable {α : Type}

def listEach (attempt : α → Nat → Listing) : List α → Nat → Listing
  | [], copies => .nothing copies
  | candidate :: candidates, copies =>
    (attempt candidate copies).andThen (listEach attempt candidates)

end

def listFact (goOn : Env → Nat → Listing) (env : Env) (goal fact : Predicate) (copies : Nat) :
    Listing :=
  match env.unifiedPredicates? goal fact with
  | none => .nothing copies
  | some extended => goOn extended copies

def listRule (limits : Limits) (expansions : Nat) (goOn : List Predicate → Env → Nat → Listing)
    (env : Env) (goal : Predicate) (rule : Rule) (copies : Nat) : Listing :=
  let number := copies + 1
  match env.unifiedPredicates? goal (rule.copiedHead number) with
  | none => .nothing number
  | some extended =>
    match limits.reached expansions with
    | some limit => ⟨[], .tooDeep limit, number⟩
    | none => goOn (rule.copiedGoals number) extended number

def listGoals (database : Database) (limits : Limits) (expansions : Nat)
    (expand : List Predicate → Env → Nat → Listing) : List Predicate → Env → Nat → Listing
  | [], env, copies => ⟨[(env, copies)], .exhausted, copies⟩
  | goal :: rest, env, copies =>
    let byFact := listFact (listGoals database limits expansions expand rest) env goal
    let byRule := listRule limits expansions (fun goals => expand (goals ++ rest)) env goal
    (listEach byFact (database.factsOf goal.signature) copies).andThen
      (listEach byRule (database.rulesOf goal.signature))

/-- All that the search finds. -/
def listing (database : Database) (limits : Limits) :
    Nat → Nat → List Predicate → Env → Nat → Listing
  | 0, expansions, goals, env, copies =>
    listGoals database limits expansions (fun _ _ copies => ⟨[], .unfinished, copies⟩) goals env
      copies
  | fuel + 1, expansions, goals, env, copies =>
    listGoals database limits expansions (listing database limits fuel (expansions + 1)) goals env
      copies

/-! ## How a listing ends -/

section

variable {α : Type} (holds : Ending → Prop)

theorem Listing.ending_andThen {first : Listing} {next : Nat → Listing}
    (before : holds first.ending) (after : ∀ copies, holds (next copies).ending) :
    holds (first.andThen next).ending := by
  unfold andThen
  split
  · exact after _
  · exact before

theorem listEach_ending {attempt : α → Nat → Listing} {candidates : List α}
    (full : holds .exhausted)
    (each : ∀ candidate ∈ candidates, ∀ copies, holds (attempt candidate copies).ending)
    (copies : Nat) : holds (listEach attempt candidates copies).ending := by
  induction candidates generalizing copies with
  | nil => exact full
  | cons candidate candidates ih =>
    obtain ⟨first, rest⟩ := List.forall_mem_cons.mp each
    exact Listing.ending_andThen holds (first copies) (ih rest)

theorem listGoals_ending {database : Database} {limits : Limits} {expansions : Nat}
    {expand : List Predicate → Env → Nat → Listing} (full : holds .exhausted)
    (deep : ∀ limit, limits.reached expansions = some limit → holds (.tooDeep limit))
    (later : limits.reached expansions = none →
      ∀ goals env copies, holds (expand goals env copies).ending)
    (goals : List Predicate) (env : Env) (copies : Nat) :
    holds (listGoals database limits expansions expand goals env copies).ending := by
  induction goals generalizing env copies with
  | nil => exact full
  | cons goal rest ih =>
    apply Listing.ending_andThen holds
    · apply listEach_ending holds full
      intro fact _ copies
      unfold listFact
      split
      · exact full
      · exact ih _ copies
    · apply listEach_ending holds full
      intro rule _ copies
      simp only [listRule]
      split
      · exact full
      · split
        next limit reached => exact deep limit reached
        next going => exact later going _ _ _

end

namespace Limits

theorem reached_eq_none {limits : Limits} {expansions : Nat} :
    limits.reached expansions = none ↔ ∀ limit ∈ limits.depth, expansions < limit := by
  simp [reached]

theorem mem_depth_of_reached {limits : Limits} {expansions limit : Nat}
    (reached : limits.reached expansions = some limit) : limit ∈ limits.depth :=
  (Option.filter_eq_some_iff.mp reached).1

end Limits

/-- A listing is not stopped; it is cut off at the limit, or by the fuel if that is used up first. -/
theorem listing_ending (holds : Ending → Prop) (database : Database) (limits : Limits)
    (fuel expansions : Nat) (full : holds .exhausted)
    (deep : ∀ limit ∈ limits.depth, holds (.tooDeep limit))
    (short : (∀ limit ∈ limits.depth, expansions + fuel < limit) → holds .unfinished)
    (goals : List Predicate) (env : Env) (copies : Nat) :
    holds (listing database limits fuel expansions goals env copies).ending := by
  have cut : ∀ expansions limit, limits.reached expansions = some limit → holds (.tooDeep limit) :=
    fun _ limit reached => deep limit (Limits.mem_depth_of_reached reached)
  induction fuel generalizing expansions goals env copies with
  | zero =>
    apply listGoals_ending holds full (cut expansions)
    intro going _ _ _
    exact short (Limits.reached_eq_none.mp going)
  | succ fuel ih =>
    apply listGoals_ending holds full (cut expansions)
    intro _ goals env copies
    apply ih (expansions + 1)
    intro less
    apply short
    intro limit member
    have := less limit member
    omega

theorem listing_ne_stopped (database : Database) (limits : Limits) (fuel expansions : Nat)
    (goals : List Predicate) (env : Env) (copies : Nat) :
    (listing database limits fuel expansions goals env copies).ending ≠ .stopped := by
  apply listing_ending (· ≠ .stopped) <;> simp

/-! ## The reference search shows the listing -/

section

variable {σ α : Type}

theorem inTurn_append (first second : List (Branch σ)) (tally : Tally σ) :
    inTurn (first ++ second) tally =
      match inTurn first tally with
      | (.exhausted, next) => inTurn second next
      | halted => halted := by
  induction first generalizing tally with
  | nil => rfl
  | cons branch first ih =>
    simp only [List.cons_append, inTurn]
    split
    next next _ => exact ih next
    next halted =>
      split
      next next same => exact absurd same (halted next)
      next => rfl

/-- A branch does what showing its listing does. -/
def Shows (visitor : Visitor σ) (branch : Branch σ) (list : Nat → Listing) : Prop :=
  ∀ tally, branch tally = (list tally.copies).showTo visitor tally.seen

variable {visitor : Visitor σ}

theorem shows_listEach {attempt : α → Branch σ} {list : α → Nat → Listing} (candidates : List α)
    (each : ∀ candidate ∈ candidates, Shows visitor (attempt candidate) (list candidate)) :
    Shows visitor (inTurn (candidates.map attempt)) (listEach list candidates) := by
  induction candidates with
  | nil =>
    intro tally
    rfl
  | cons candidate candidates ih =>
    intro tally
    have later := ih fun other member => each other (List.mem_cons_of_mem _ member)
    rw [List.map_cons, inTurn, listEach, Listing.showTo_andThen,
      each candidate List.mem_cons_self tally]
    split
    next next _ => exact later next
    next => rfl

theorem shows_listFact {goOn : Env → Branch σ} {list : Env → Nat → Listing}
    (later : ∀ env, Shows visitor (goOn env) (list env)) (env : Env) (goal fact : Predicate) :
    Shows visitor (factBranch goOn env goal fact) (listFact list env goal fact) := by
  intro tally
  unfold factBranch listFact
  cases env.unifiedPredicates? goal fact with
  | none => rfl
  | some extended => exact later extended tally

theorem shows_listRule {goOn : List Predicate → Env → Branch σ}
    {list : List Predicate → Env → Nat → Listing} (limits : Limits) (expansions : Nat)
    (later : ∀ goals env, Shows visitor (goOn goals env) (list goals env)) (env : Env)
    (goal : Predicate) (rule : Rule) :
    Shows visitor (ruleBranch limits expansions goOn env goal rule)
      (listRule limits expansions list env goal rule) := by
  intro tally
  simp only [ruleBranch, listRule]
  cases env.unifiedPredicates? goal (rule.copiedHead (tally.copies + 1)) with
  | none => rfl
  | some extended =>
    cases limits.reached expansions with
    | some limit => rfl
    | none => exact later _ extended { tally with copies := tally.copies + 1 }

theorem shows_listGoals {database : Database} {limits : Limits} {expansions : Nat}
    {expand : List Predicate → Env → Branch σ} {list : List Predicate → Env → Nat → Listing}
    (later : ∀ goals env, Shows visitor (expand goals env) (list goals env))
    (goals : List Predicate) (env : Env) :
    Shows visitor (copyGoals database limits visitor expansions expand goals env)
      (listGoals database limits expansions list goals env) := by
  induction goals generalizing env with
  | nil =>
    intro tally
    simp only [copyGoals, listGoals, showBranch, Listing.showTo, Listing.showFound]
  | cons goal rest ih =>
    intro tally
    have facts := shows_listEach (database.factsOf goal.signature) fun fact _ =>
      shows_listFact ih env goal fact
    have rules := shows_listEach (database.rulesOf goal.signature) fun rule _ =>
      shows_listRule limits expansions (fun goals => later (goals ++ rest)) env goal rule
    simp only [copyGoals, listGoals]
    rw [inTurn_append, Listing.showTo_andThen, facts tally]
    split
    next next _ => exact rules next
    next => rfl

theorem copySearch_shows (database : Database) (limits : Limits) (visitor : Visitor σ)
    (fuel expansions : Nat) (goals : List Predicate) (env : Env) :
    Shows visitor (copySearch database limits visitor fuel expansions goals env)
      (listing database limits fuel expansions goals env) := by
  induction fuel generalizing expansions goals env with
  | zero =>
    have abandoned : ∀ (_ : List Predicate) (_ : Env),
        Shows visitor (fun tally => (.unfinished, tally)) fun copies => ⟨[], .unfinished, copies⟩ :=
      fun _ _ _ => rfl
    exact shows_listGoals abandoned goals env
  | succ fuel ih => exact shows_listGoals (ih (expansions + 1)) goals env

end

end Backchain
