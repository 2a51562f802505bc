import Backchain.Proofs.Env.Unification
import Backchain.Proofs.Search.CopyNames
import Backchain.Proofs.Search.Skeleton
import Backchain.Proofs.Session.Reachable

/-!
Rule copies share no name with anything in use.

A logged search first writes down every rule copy, head and goals, with the environment and the goals
of that moment, and then takes its step from what it has written: it unifies that head and goes on with
those goals. Forgetting the log gives the search, so a record shows what the search has used. A copy is
hygienic if its names are new to the environment, the goals, the facts and every copy with a smaller
number. As long as no name in use is a copy name with a number that is still to be given out, each copy
is hygienic, and this stays so: unification only binds names in use to terms in use, and the number of
copies never goes back.
-/
set_option autoImplicit false

namespace Backchain

/-- The variables of the head and of the goals of a copy. -/
def Rule.copiedNames (rule : Rule) (number : Nat) : List String :=
  (rule.copiedHead number).occurrences ++ (rule.copiedGoals number).flatMap Predicate.occurrences

/-- A use of a rule: the number, the head and the goals of the copy, and the environment, the goal to
meet the head and the goals after it, as they are when the copy is made. -/
structure Use where
  rule : Rule
  number : Nat
  head : Predicate
  body : List Predicate
  env : Env
  goal : Predicate
  rest : List Predicate

namespace Use

/-- The variables of the head and of the goals that are used. -/
def names (use : Use) : List String :=
  use.head.occurrences ++ use.body.flatMap Predicate.occurrences

/-- The names of a copy are the names of the rule under one injective map, and nothing has them
yet. -/
structure Hygienic (database : Database) (use : Use) : Prop where
  renamed : ∃ copy : String → String, Function.Injective copy ∧
    (∀ name, copy name = name.push '#' ++ toString use.number) ∧
    use.head = use.rule.head.rename copy ∧
    use.body = use.rule.goals.map (Predicate.rename copy)
  newToEnv : ∀ name ∈ use.names, ∀ x term, use.env.find? x = some term →
    name ≠ x ∧ name ∉ term.occurrences
  newToGoals : ∀ name ∈ use.names, ∀ goal ∈ use.goal :: use.rest, name ∉ goal.occurrences
  newToFacts : ∀ name ∈ use.names, ∀ fact ∈ database.facts, name ∉ fact.occurrences
  newToCopies : ∀ name ∈ use.names, ∀ (rule : Rule) (earlier : Nat),
    earlier < use.number → name ∉ rule.copiedNames earlier

end Use

/-- No name in use is a copy name with a number that is still to be given out. -/
structure Unclaimed (database : Database) (env : Env) (goals : List Predicate) (copies : Nat) :
    Prop where
  facts : ∀ fact ∈ database.facts, fact.IsBelow copies
  env : env.Every (Term.IsBelow copies)
  goals : ∀ goal ∈ goals, goal.IsBelow copies

/-! ## The logged search -/

section

variable {σ α : Type}

/-- The use of a rule that comes next. -/
def Use.next (rule : Rule) (goal : Predicate) (rest : List Predicate) (env : Env) (copies : Nat) :
    Use where
  rule := rule
  number := copies + 1
  head := rule.copiedHead (copies + 1)
  body := rule.copiedGoals (copies + 1)
  env := env
  goal := goal
  rest := rest

/-- Takes the step of a use: goes on with its goals, and those after them, in the environments in which
its goal is its head. -/
def Use.perform (limits : Limits) (expansions : Nat)
    (goOn : List Predicate → Progress σ → Ending × Progress σ) (use : Use) (seen : σ) :
    Ending × Progress σ :=
  match use.env.unifyPredicates use.goal use.head with
  | (false, env) => (.exhausted, ⟨env, use.number, seen⟩)
  | (true, env) =>
    match limits.reached expansions with
    | some limit => (.tooDeep limit, ⟨env, use.number, seen⟩)
    | none => Progress.backTo use.env.size (goOn (use.body ++ use.rest) ⟨env, use.number, seen⟩)

/-- Writes down the next use of a rule and takes the step that is written. -/
def loggedRule (limits : Limits) (expansions : Nat)
    (goOn : List Predicate → Progress (List Use × σ) → Ending × Progress (List Use × σ))
    (goal : Predicate) (rest : List Predicate) (rule : Rule) :
    Progress (List Use × σ) → Ending × Progress (List Use × σ)
  | ⟨env, copies, (uses, seen)⟩ =>
    let use := Use.next rule goal rest env copies
    use.perform limits expansions goOn (uses ++ [use], seen)

/-- The visitor beside a log. -/
def Visitor.besideLog (visitor : Visitor σ) : Visitor (List Use × σ) := fun env (uses, seen) =>
  match visitor env seen with
  | .yield seen => .yield (uses, seen)
  | .done seen => .done (uses, seen)

def loggedGoals (database : Database) (limits : Limits) (visitor : Visitor σ) (expansions : Nat)
    (expand : List Predicate → Progress (List Use × σ) → Ending × Progress (List Use × σ)) :
    List Predicate → Progress (List Use × σ) → Ending × Progress (List Use × σ)
  | [], progress => progress.visit visitor.besideLog
  | goal :: rest, progress =>
    let byFact := useFact (loggedGoals database limits visitor expansions expand rest) goal
    match tryEach byFact (database.factsOf goal.signature) progress with
    | (.exhausted, next) =>
      tryEach (loggedRule limits expansions expand goal rest) (database.rulesOf goal.signature) next
    | halted => halted

/-- The search, with every use of a rule written down before it is made. -/
def loggedSearch (database : Database) (limits : Limits) (visitor : Visitor σ) :
    Nat → Nat → List Predicate → Progress (List Use × σ) → Ending × Progress (List Use × σ)
  | 0, expansions, goals, progress =>
    loggedGoals database limits visitor expansions (fun _ progress => (.unfinished, progress)) goals
      progress
  | fuel + 1, expansions, goals, progress =>
    loggedGoals database limits visitor expansions
      (loggedSearch database limits visitor fuel (expansions + 1)) goals progress

/-! ## Forgetting the log -/

def Progress.forgetLog : Progress (List Use × σ) → Progress σ
  | ⟨env, copies, (_, seen)⟩ => ⟨env, copies, seen⟩

def forgetLog (run : Ending × Progress (List Use × σ)) : Ending × Progress σ :=
  (run.1, run.2.forgetLog)

/-- A part of the logged search does what a part of the search does. -/
def Forgets (logged : Progress (List Use × σ) → Ending × Progress (List Use × σ))
    (plain : Progress σ → Ending × Progress σ) : Prop :=
  ∀ progress, forgetLog (logged progress) = plain progress.forgetLog

theorem forgets_visit (visitor : Visitor σ) :
    Forgets (fun progress => progress.visit visitor.besideLog) fun progress =>
      progress.visit visitor := by
  rintro ⟨env, copies, uses, seen⟩
  simp only [Progress.visit, Visitor.besideLog, Progress.forgetLog]
  cases visitor env seen <;> rfl

theorem forgets_tryEach {logged : α → Progress (List Use × σ) → Ending × Progress (List Use × σ)}
    {plain : α → Progress σ → Ending × Progress σ}
    (each : ∀ candidate, Forgets (logged candidate) (plain candidate)) (candidates : List α) :
    Forgets (tryEach logged candidates) (tryEach plain candidates) := by
  induction candidates with
  | nil => exact fun _ => rfl
  | cons candidate candidates ih =>
    intro progress
    rw [tryEach, tryEach, ← each candidate progress]
    generalize logged candidate progress = run
    obtain ⟨ending, next⟩ := run
    cases ending with
    | exhausted => exact ih next
    | _ => rfl

theorem forgets_useFact {logged : Progress (List Use × σ) → Ending × Progress (List Use × σ)}
    {plain : Progress σ → Ending × Progress σ} (later : Forgets logged plain)
    (goal fact : Predicate) : Forgets (useFact logged goal fact) (useFact plain goal fact) := by
  rintro ⟨env, copies, uses, seen⟩
  simp only [useFact, Progress.forgetLog]
  generalize env.unifyPredicates goal fact = outcome
  obtain ⟨_ | _, extended⟩ := outcome
  · rfl
  · exact congrArg (Progress.backTo env.size) (later ⟨extended, copies, (uses, seen)⟩)

theorem forgets_loggedRule
    {logged : List Predicate → Progress (List Use × σ) → Ending × Progress (List Use × σ)}
    {plain : List Predicate → Progress σ → Ending × Progress σ}
    (later : ∀ goals, Forgets (logged goals) (plain goals)) (limits : Limits) (expansions : Nat)
    (goal : Predicate) (rest : List Predicate) (rule : Rule) :
    Forgets (loggedRule limits expansions logged goal rest rule)
      (useRule limits expansions (fun goals => plain (goals ++ rest)) goal rule) := by
  rintro ⟨env, copies, uses, seen⟩
  simp only [loggedRule, Use.perform, Use.next, useRule, Progress.forgetLog]
  generalize env.unifyPredicates goal (rule.copiedHead (copies + 1)) = outcome
  obtain ⟨_ | _, extended⟩ := outcome
  · rfl
  · cases limits.reached expansions with
    | some limit => rfl
    | none => exact congrArg (Progress.backTo env.size) (later _ ⟨extended, copies + 1, (_, seen)⟩)

theorem forgets_loggedGoals {database : Database} {limits : Limits} {visitor : Visitor σ}
    {expansions : Nat}
    {logged : List Predicate → Progress (List Use × σ) → Ending × Progress (List Use × σ)}
    {plain : List Predicate → Progress σ → Ending × Progress σ}
    (later : ∀ goals, Forgets (logged goals) (plain goals)) (goals : List Predicate) :
    Forgets (loggedGoals database limits visitor expansions logged goals)
      (searchGoals database limits visitor expansions plain goals) := by
  induction goals with
  | nil => exact forgets_visit visitor
  | cons goal rest ih =>
    intro progress
    have facts := forgets_tryEach (forgets_useFact ih goal) (database.factsOf goal.signature) progress
    have rules := forgets_tryEach (forgets_loggedRule later limits expansions goal rest)
      (database.rulesOf goal.signature)
    simp only [loggedGoals, searchGoals]
    rw [← facts]
    generalize tryEach _ (database.factsOf goal.signature) progress = run
    obtain ⟨ending, next⟩ := run
    cases ending with
    | exhausted => exact rules next
    | _ => rfl

theorem forgets_loggedSearch (database : Database) (limits : Limits) (visitor : Visitor σ)
    (fuel expansions : Nat) (goals : List Predicate) :
    Forgets (loggedSearch database limits visitor fuel expansions goals)
      (search database limits visitor fuel expansions goals) := by
  induction fuel generalizing expansions goals with
  | zero => exact forgets_loggedGoals (fun _ _ => rfl) goals
  | succ fuel ih => exact forgets_loggedGoals (ih (expansions + 1)) goals

end

/-! ## New names -/

variable {database : Database} {env extended : Env} {goal clause : Predicate}
  {goals rest : List Predicate} {copies : Nat}

theorem mem_copiedNames {rule : Rule} {number : Nat} {name : String}
    (member : name ∈ rule.copiedNames number) : ∃ x, name = copyName number x := by
  rw [Rule.copiedNames, List.mem_append, List.mem_flatMap] at member
  rcases member with inHead | ⟨part, inside, occurs⟩
  · rw [Rule.copiedHead, Predicate.occurrences_rename] at inHead
    obtain ⟨x, -, rfl⟩ := List.mem_map.mp inHead
    exact ⟨x, rfl⟩
  · obtain ⟨before, -, rfl⟩ := List.mem_map.mp inside
    rw [Predicate.occurrences_rename] at occurs
    obtain ⟨x, -, rfl⟩ := List.mem_map.mp occurs
    exact ⟨x, rfl⟩

theorem Unclaimed.hygienic (unclaimed : Unclaimed database env (goal :: rest) copies) (rule : Rule) :
    (Use.next rule goal rest env copies).Hygienic database := by
  have new : ∀ name ∈ rule.copiedNames (copies + 1), ¬ Below copies name := by
    intro name member below
    obtain ⟨x, same⟩ := mem_copiedNames member
    exact below (copies + 1) x (Nat.lt_succ_self copies) same
  refine ⟨⟨copyName (copies + 1), ?_, fun _ => rfl, rfl, rfl⟩, ?_, ?_, ?_, ?_⟩
  · exact fun x y same => (copyName_inj.mp same).2
  · intro name member x term bound
    obtain ⟨key, inside⟩ := unclaimed.env x term bound
    refine ⟨?_, fun occurs => new name member (inside name occurs)⟩
    rintro rfl
    exact new name member (key name (List.mem_singleton.mpr rfl))
  · intro name member goal inside occurs
    exact new name member ((unclaimed.goals goal inside).occurrences name occurs)
  · intro name member fact inside occurs
    exact new name member ((unclaimed.facts fact inside).occurrences name occurs)
  · intro name member other earlier smaller again
    obtain ⟨x, rfl⟩ := mem_copiedNames member
    obtain ⟨y, same⟩ := mem_copiedNames again
    have numbers : copies + 1 = earlier := (copyName_inj.mp same).1
    exact Nat.ne_of_gt smaller numbers

theorem Use.Hygienic.names_eq {use : Use} (hygienic : use.Hygienic database) :
    use.names = use.rule.copiedNames use.number := by
  obtain ⟨copy, -, named, head, body⟩ := hygienic.renamed
  obtain rfl : copy = copyName use.number := funext named
  rw [Use.names, head, body]
  rfl

/-- Hygienic copies that are numbered in turn have no names in common. -/
theorem pairwise_names {uses : List Use} {first : Nat}
    (numbers : uses.map Use.number = List.range' first uses.length)
    (each : ∀ use ∈ uses, use.Hygienic database) :
    uses.Pairwise fun earlier later => ∀ name ∈ later.names, name ∉ earlier.names := by
  have increasing : (uses.map Use.number).Pairwise (· < ·) :=
    numbers ▸ List.pairwise_lt_range'
  refine (List.pairwise_map.mp increasing).imp_of_mem ?_
  intro earlier later memberEarlier memberLater smaller name member
  rw [(each earlier memberEarlier).names_eq]
  exact (each later memberLater).newToCopies name member earlier.rule earlier.number smaller

/-! ## What a step keeps -/

theorem Unclaimed.mono {later : Nat} (unclaimed : Unclaimed database env goals copies)
    (greater : copies ≤ later) : Unclaimed database env goals later where
  facts fact member := (unclaimed.facts fact member).mono greater
  env := unclaimed.env.imp fun _ below => below.mono greater
  goals goal member := (unclaimed.goals goal member).mono greater

theorem Unclaimed.unified (unclaimed : Unclaimed database env (goal :: rest) copies)
    (acyclic : env.Acyclic) (below : clause.IsBelow copies)
    (unified : env.unifiedPredicates? goal clause = some extended) :
    Unclaimed database extended rest copies where
  facts := unclaimed.facts
  env := Env.every_of_unifiedPredicates (hereditary_isBelow copies) acyclic unified unclaimed.env
    (unclaimed.goals goal List.mem_cons_self) below
  goals other member := unclaimed.goals other (List.mem_cons_of_mem _ member)

theorem Unclaimed.opened {rule : Rule} (unclaimed : Unclaimed database env (goal :: rest) copies)
    (acyclic : env.Acyclic)
    (unified : env.unifiedPredicates? goal (rule.copiedHead (copies + 1)) = some extended) :
    Unclaimed database extended (rule.copiedGoals (copies + 1) ++ rest) (copies + 1) := by
  have met := (unclaimed.mono (Nat.le_succ copies)).unified acyclic
    (Predicate.isBelow_rename _ _) unified
  exact ⟨met.facts, met.env, List.forall_mem_append.mpr
    ⟨fun _ member => Rule.isBelow_of_mem_copiedGoals member, met.goals⟩⟩

/-! ## What a run writes down -/

section

variable {σ α : Type} {uses : List Use} {limits : Limits} {visitor : Visitor σ} {expansions : Nat}

/-- A part of the logged search writes down hygienic copies, numbered in turn, and gives its
environment back if it comes to its full end. -/
structure Logs (database : Database) (env : Env) (copies : Nat) (uses : List Use)
    (run : Ending × Progress (List Use × σ)) : Prop where
  restored : run.1 = .exhausted → run.2.env = env
  grows : run.2.env.Extends env
  added : ∃ new : List Use, run.2.seen.1 = uses ++ new ∧ run.2.copies = copies + new.length ∧
    new.map Use.number = List.range' (copies + 1) new.length ∧
    ∀ use ∈ new, use.Hygienic database

theorem Logs.nothing (env : Env) (copies : Nat) (uses : List Use) (ending : Ending) (seen : σ) :
    Logs database env copies uses (ending, ⟨env, copies, (uses, seen)⟩) :=
  ⟨fun _ => rfl, .refl env, [], by simp, rfl, rfl, fun _ absent => absurd absent List.not_mem_nil⟩

/-- After one hygienic copy. -/
theorem Logs.after {run : Ending × Progress (List Use × σ)} {use : Use}
    (later : Logs database env (copies + 1) (uses ++ [use]) run) (number : use.number = copies + 1)
    (hygienic : use.Hygienic database) : Logs database env copies uses run := by
  obtain ⟨new, written, counted, numbers, each⟩ := later.added
  refine ⟨later.restored, later.grows, use :: new, ?_, ?_, ?_, ?_⟩
  · rw [written, List.append_assoc]
    rfl
  · rw [counted, List.length_cons]
    omega
  · rw [List.map_cons, numbers, number, List.length_cons, List.range'_succ]
  · exact List.forall_mem_cons.mpr ⟨hygienic, each⟩

theorem Logs.backTo {run : Ending × Progress (List Use × σ)}
    (within : Logs database extended copies uses run) (extends_ : extended.Extends env) :
    Logs database env copies uses (Progress.backTo env.size run) := by
  obtain ⟨ending, progress⟩ := run
  have back : progress.env.undoTo env.size = env := (within.grows.trans extends_).undoTo
  refine ⟨fun _ => back, ?_, within.added⟩
  rw [Progress.backTo, back]
  exact .refl env

theorem Logs.andThen {progress : Progress (List Use × σ)}
    {next : Progress (List Use × σ) → Ending × Progress (List Use × σ)}
    (first : Logs database env copies uses (.exhausted, progress))
    (later : ∀ number uses seen, copies ≤ number →
      Logs database env number uses (next ⟨env, number, (uses, seen)⟩)) :
    Logs database env copies uses (next progress) := by
  obtain ⟨here, count, log, seen⟩ := progress
  obtain ⟨new, rfl, counted, numbers, each⟩ := first.added
  simp only at counted
  obtain rfl : here = env := first.restored rfl
  have rest := later count (uses ++ new) seen (by omega)
  obtain ⟨last, written, total, following, others⟩ := rest.added
  refine ⟨rest.restored, rest.grows, new ++ last, ?_, ?_, ?_,
    List.forall_mem_append.mpr ⟨each, others⟩⟩
  · rw [written, List.append_assoc]
  · rw [total, counted, List.length_append]
    omega
  · rw [List.map_append, numbers, following, counted, List.length_append, ← List.range'_append_1]
    congr 2
    omega

theorem logs_tryEach {attempt : α → Progress (List Use × σ) → Ending × Progress (List Use × σ)}
    (candidates : List α)
    (each : ∀ candidate ∈ candidates, ∀ number uses seen, copies ≤ number →
      Logs database env number uses (attempt candidate ⟨env, number, (uses, seen)⟩))
    (uses : List Use) (seen : σ) :
    Logs database env copies uses (tryEach attempt candidates ⟨env, copies, (uses, seen)⟩) := by
  induction candidates generalizing copies uses seen with
  | nil => exact .nothing env copies uses .exhausted seen
  | cons candidate candidates ih =>
    have first := each candidate List.mem_cons_self copies uses seen (Nat.le_refl _)
    rw [tryEach]
    generalize attempt candidate ⟨env, copies, (uses, seen)⟩ = run at first
    obtain ⟨ending, next⟩ := run
    cases ending with
    | exhausted =>
      apply first.andThen
      intro number uses seen greater
      apply ih
      intro other member later uses seen above
      exact each other (List.mem_cons_of_mem _ member) later uses seen (Nat.le_trans greater above)
    | _ => exact first

theorem logs_useFact {goOn : Progress (List Use × σ) → Ending × Progress (List Use × σ)}
    {fact : Predicate} (acyclic : env.Acyclic)
    (unclaimed : Unclaimed database env (goal :: rest) copies) (below : fact.IsBelow copies)
    (later : ∀ extended seen, extended.Acyclic → Unclaimed database extended rest copies →
      Logs database extended copies uses (goOn ⟨extended, copies, (uses, seen)⟩)) (seen : σ) :
    Logs database env copies uses (useFact goOn goal fact ⟨env, copies, (uses, seen)⟩) := by
  simp only [useFact, Env.unifyPredicates_eq]
  cases unified : env.unifiedPredicates? goal fact with
  | none => exact .nothing env copies uses .exhausted seen
  | some extended =>
    exact (later extended seen (Env.acyclic_of_unifiedPredicates acyclic unified)
      (unclaimed.unified acyclic below unified)).backTo (Env.extends_of_unifiedPredicates unified)

theorem logs_loggedRule
    {goOn : List Predicate → Progress (List Use × σ) → Ending × Progress (List Use × σ)}
    (rule : Rule) (acyclic : env.Acyclic)
    (unclaimed : Unclaimed database env (goal :: rest) copies)
    (later : ∀ goals extended uses seen, extended.Acyclic →
      Unclaimed database extended goals (copies + 1) →
      Logs database extended (copies + 1) uses (goOn goals ⟨extended, copies + 1, (uses, seen)⟩))
    (seen : σ) :
    Logs database env copies uses
      (loggedRule limits expansions goOn goal rest rule ⟨env, copies, (uses, seen)⟩) := by
  have hygienic := unclaimed.hygienic rule
  refine Logs.after ?_ rfl hygienic
  simp only [loggedRule, Use.perform, Use.next, Env.unifyPredicates_eq]
  cases unified : env.unifiedPredicates? goal (rule.copiedHead (copies + 1)) with
  | none => exact .nothing env (copies + 1) _ .exhausted seen
  | some extended =>
    have grows := Env.extends_of_unifiedPredicates unified
    cases limits.reached expansions with
    | some limit =>
      have cut : Logs database extended (copies + 1) _ (.tooDeep limit, ⟨_, _, (_, seen)⟩) :=
        .nothing extended (copies + 1) (uses ++ [Use.next rule goal rest env copies]) _ seen
      exact ⟨nofun, grows, cut.added⟩
    | none =>
      exact (later _ extended _ seen (Env.acyclic_of_unifiedPredicates acyclic unified)
        (unclaimed.opened acyclic unified)).backTo grows

theorem logs_loggedGoals
    {expand : List Predicate → Progress (List Use × σ) → Ending × Progress (List Use × σ)}
    (later : ∀ goals env copies uses seen, env.Acyclic → Unclaimed database env goals copies →
      Logs database env copies uses (expand goals ⟨env, copies, (uses, seen)⟩))
    (goals : List Predicate) (env : Env) (copies : Nat) (uses : List Use) (seen : σ)
    (acyclic : env.Acyclic) (unclaimed : Unclaimed database env goals copies) :
    Logs database env copies uses
      (loggedGoals database limits visitor expansions expand goals ⟨env, copies, (uses, seen)⟩) := by
  induction goals generalizing env copies uses seen with
  | nil =>
    simp only [loggedGoals, Progress.visit, Visitor.besideLog]
    cases visitor env seen with
    | yield seen => exact .nothing env copies uses .exhausted seen
    | done seen => exact .nothing env copies uses .stopped seen
  | cons goal rest ih =>
    have facts : Logs database env copies uses (tryEach
        (useFact (loggedGoals database limits visitor expansions expand rest) goal)
        (database.factsOf goal.signature) ⟨env, copies, (uses, seen)⟩) := by
      apply logs_tryEach
      intro fact member number uses seen greater
      obtain ⟨place, stored⟩ := exists_place_of_mem_factsOf member
      have below := unclaimed.facts fact (Array.mem_of_getElem? stored)
      exact logs_useFact acyclic (unclaimed.mono greater) (below.mono greater)
        (fun extended seen => ih extended number uses seen) seen
    have rules : ∀ number uses seen, copies ≤ number → Logs database env number uses (tryEach
        (loggedRule limits expansions expand goal rest) (database.rulesOf goal.signature)
        ⟨env, number, (uses, seen)⟩) := by
      intro number uses seen greater
      apply logs_tryEach
      intro rule _ last uses seen above
      exact logs_loggedRule rule acyclic (unclaimed.mono (Nat.le_trans greater above))
        (fun goals extended uses seen => later goals extended _ uses seen) seen
    simp only [loggedGoals]
    generalize tryEach _ (database.factsOf goal.signature) _ = run at facts
    obtain ⟨ending, next⟩ := run
    cases ending with
    | exhausted => exact facts.andThen rules
    | _ => exact facts

theorem logs_loggedSearch (fuel : Nat) (goals : List Predicate) (env : Env) (copies : Nat)
    (uses : List Use) (seen : σ) (acyclic : env.Acyclic)
    (unclaimed : Unclaimed database env goals copies) :
    Logs database env copies uses (loggedSearch database limits visitor fuel expansions goals
      ⟨env, copies, (uses, seen)⟩) := by
  induction fuel generalizing expansions goals env copies uses seen with
  | zero =>
    refine logs_loggedGoals ?_ goals env copies uses seen acyclic unclaimed
    exact fun _ env copies uses seen _ _ => .nothing env copies uses .unfinished seen
  | succ fuel ih =>
    refine logs_loggedGoals ?_ goals env copies uses seen acyclic unclaimed
    exact fun goals env copies uses seen acyclic unclaimed =>
      ih goals env copies uses seen acyclic unclaimed

end

/-! ## Sessions -/

/-- A query may fail on the depth limit only. -/
def Session.Accepts (session : Session) (goal : Term) : Prop :=
  ∀ cause, session.query goal = .error (.error cause) → ∃ limit, cause = .depthLimitExceeded limit

theorem Session.Accepts.exists_goals {session : Session} {goal : Term}
    (accepts : session.Accepts goal) : ∃ goals, goal.goals = .ok goals ∧ ∀ part ∈ goals, part.IsUnmarked := by
  cases checked : checkNames [goal] with
  | error cause =>
    obtain ⟨limit, same⟩ := accepts cause (by rw [query, checked])
    obtain ⟨name, other⟩ := reservedVariable_of_checkNames checked
    cases same.symm.trans other
  | ok =>
    cases flat : goal.goals with
    | error found =>
      obtain ⟨limit, same⟩ := accepts (.malformedGoal found) (by rw [query, checked, flat])
      cases same
    | ok goals =>
      have unmarked := checkNames_eq_ok_iff.mp checked goal (List.mem_singleton.mpr rfl)
      exact ⟨goals, rfl, unmarked.goals flat⟩

theorem Unclaimed.of_unmarked (facts : ∀ fact ∈ database.facts, fact.IsUnmarked)
    (bindings : env.Every Term.IsUnmarked) (goalsUnmarked : ∀ goal ∈ goals, goal.IsUnmarked)
    (copies : Nat) : Unclaimed database env goals copies where
  facts fact member := (facts fact member).isBelow copies
  env := bindings.imp fun _ unmarked => unmarked.isBelow copies
  goals goal member := (goalsUnmarked goal member).isBelow copies

/-- In every run of the search whose start leaves the coming copy names unclaimed, the copies are
numbered in turn, each is hygienic when it is used, and no two have a name in common. The logged run
takes its steps from the records and is the run of the search, so these are the heads that the search
unifies and the goals that it goes on with. What sessions store and accept as queries leaves all copy
names unclaimed. -/
theorem copies_hygienic :
    (∀ {σ : Type} (database : Database) (limits : Limits) (visitor : Visitor σ)
        (fuel expansions : Nat) (goals : List Predicate) (env : Env) (copies : Nat) (seen : σ),
      env.Reachable → Unclaimed database env goals copies →
      let run := loggedSearch database limits visitor fuel expansions goals ⟨env, copies, ([], seen)⟩
      let uses := run.2.seen.1
      forgetLog run = search database limits visitor fuel expansions goals ⟨env, copies, seen⟩ ∧
        run.2.copies = copies + uses.length ∧
        uses.map Use.number = List.range' (copies + 1) uses.length ∧
        (∀ use ∈ uses, use.Hygienic database) ∧
        uses.Pairwise fun earlier later => ∀ name ∈ later.names, name ∉ earlier.names) ∧
      ∀ session : Session, session.Reachable →
        (∀ fact ∈ session.database.facts, fact.IsBelow 0) ∧
          ∀ goal, session.Accepts goal →
            ∃ goals, goal.goals = .ok goals ∧ Unclaimed session.database ∅ goals 0 := by
  refine ⟨?_, ?_⟩
  · intro σ database limits visitor fuel expansions goals env copies seen reachable unclaimed
    have forgets := forgets_loggedSearch database limits visitor fuel expansions goals
      ⟨env, copies, ([], seen)⟩
    have logs : Logs database env copies [] (loggedSearch database limits visitor fuel expansions
        goals ⟨env, copies, ([], seen)⟩) :=
      logs_loggedSearch fuel goals env copies [] seen reachable.acyclic unclaimed
    obtain ⟨new, written, counted, numbers, each⟩ := logs.added
    rw [List.nil_append] at written
    intro run uses
    obtain rfl : uses = new := written
    exact ⟨forgets, counted, numbers, each, pairwise_names numbers each⟩
  · intro session reachable
    have unmarked := reachable.accepted.unmarked.1
    refine ⟨fun fact member => (unmarked fact member).isBelow 0, ?_⟩
    intro goal accepts
    obtain ⟨goals, flat, parts⟩ := accepts.exists_goals
    exact ⟨goals, flat, .of_unmarked unmarked (Env.every_empty _) parts 0⟩

/-- A way to a place whose name is already that of a copy. -/
def Streets.wayToCopy : Predicate :=
  way (.atom "a") (.var (copyName 1 "W"))

theorem copies_hygienic_streets :
    let run := loggedSearch Streets.database (.ofDepth 4) (fun _ seen => .yield (seen + 1)) 5 0
      [Streets.wayToCopy] ⟨Streets.named, 1, ([], 0)⟩
    run.2.seen.2 = 2 ∧ run.2.seen.1.map Use.number = [2, 3, 4, 5, 6, 7] ∧
      (∀ use ∈ run.2.seen.1, use.Hygienic Streets.database) ∧
      run.2.seen.1.Pairwise fun earlier later => ∀ name ∈ later.names, name ∉ earlier.names := by
  have facts : ∀ fact ∈ Streets.database.facts, fact.IsUnmarked := by decide
  have bound : Streets.named.Every Term.IsUnmarked := by decide
  have unclaimed : Unclaimed Streets.database Streets.named [Streets.wayToCopy] 1 := by
    refine ⟨fun fact member => (facts fact member).isBelow 1, ?_, ?_⟩
    · exact bound.imp fun _ unmarked => unmarked.isBelow 1
    · intro goal member
      obtain rfl := List.mem_singleton.mp member
      have renamed : Streets.wayToCopy = (Streets.way (.atom "a") (.var "W")).rename (copyName 1) :=
        rfl
      rw [renamed]
      exact Predicate.isBelow_rename 1 _
  obtain ⟨-, -, -, each, apart⟩ := copies_hygienic.1 Streets.database (.ofDepth 4)
    (fun _ seen => .yield (seen + 1)) 5 0 [Streets.wayToCopy] Streets.named 1 0
    Streets.reachable_named unclaimed
  exact ⟨by rfl, by rfl, each, apart⟩

end Backchain
