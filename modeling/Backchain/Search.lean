import Backchain.Database
import Backchain.Env.Unify

/-!
Depth-first search for the environments in which all goals hold.

The leftmost goal is taken first: against every stored fact of its signature, then against every
rule, each in the order stored. A fact is used as it stands. A rule is copied first, its variables
marked with the number of the copy, and its goals go in front of the rest. One environment serves
all branches: a branch extends it and takes its bindings back when it returns.

Every environment that satisfies all goals is shown to a visitor, which may stop the search. A limit
bounds the rule expansions on a branch; independently, `fuel` bounds the recursion, and a search
that runs out of it is reported as unfinished and never as an answer.
-/
set_option autoImplicit false

namespace Backchain

structure Limits where
  /-- The most rule expansions on a branch, if that is limited. -/
  depth : Option Nat := none
  /-- The expansions on a branch after which the search is given up. -/
  fuel : Nat

namespace Limits

/-- A limit on expansions, with fuel that it never uses up. -/
def ofDepth (limit : Nat) : Limits :=
  ⟨some limit, limit + 1⟩

/-- Whether a branch that has made `expansions` may make no more. -/
def reached (limits : Limits) (expansions : Nat) : Option Nat :=
  limits.depth.filter fun limit => limit ≤ expansions

end Limits

/-- How a search, or a part of it, came to its end. -/
inductive Ending where
  /-- Every branch was searched. -/
  | exhausted
  /-- The visitor wanted no more. -/
  | stopped
  /-- A branch needed more than this limit of expansions. -/
  | tooDeep (limit : Nat)
  /-- The fuel ran out. -/
  | unfinished
deriving DecidableEq

/-- Why a search gives no answer. -/
inductive Halt where
  | error (cause : Error)
  | unfinished
deriving DecidableEq

namespace Halt

def message : Halt → String
  | .error cause => cause.message
  | .unfinished => "search given up before its end"

end Halt

namespace Ending

/-- The answer after an ending, which only a full or a stopped search has. -/
def answer {α : Type} (result : α) : Ending → Except Halt α
  | .exhausted => .ok result
  | .stopped => .ok result
  | .tooDeep limit => .error (.error (.depthLimitExceeded limit))
  | .unfinished => .error .unfinished

end Ending

/-- The name of a rule's variable in one copy of the rule. -/
def copyName (number : Nat) (name : String) : String :=
  name.push copyMark ++ toString number

namespace Rule

def copiedHead (rule : Rule) (number : Nat) : Predicate :=
  rule.head.rename (copyName number)

def copiedGoals (rule : Rule) (number : Nat) : List Predicate :=
  rule.goals.map (Predicate.rename (copyName number))

end Rule

/-- What a search carries along: the environment of the branch, the number of rule copies made so
far, and what the visitor has collected. -/
structure Progress (σ : Type) where
  env : Env
  copies : Nat
  seen : σ

/-- Takes an environment that satisfies all goals, and says whether to go on. -/
abbrev Visitor (σ : Type) :=
  Env → σ → ForInStep σ

namespace Progress

variable {σ : Type}

/-- Shows the environment to a visitor. -/
def visit (visitor : Visitor σ) (progress : Progress σ) : Ending × Progress σ :=
  match visitor progress.env progress.seen with
  | .yield seen => (.exhausted, { progress with seen })
  | .done seen => (.stopped, { progress with seen })

/-- Takes back the bindings of a branch. -/
def backTo (mark : Nat) : Ending × Progress σ → Ending × Progress σ
  | (ending, progress) => (ending, { progress with env := progress.env.undoTo mark })

end Progress

section

variable {σ α : Type}

/-- Makes one attempt after another as long as each comes to its full end. -/
def tryEach (attempt : α → Progress σ → Ending × Progress σ) :
    List α → Progress σ → Ending × Progress σ
  | [], progress => (.exhausted, progress)
  | candidate :: candidates, progress =>
    match attempt candidate progress with
    | (.exhausted, next) => tryEach attempt candidates next
    | halted => halted

/-- Goes on in the environments in which the goal is this fact. -/
def useFact (goOn : Progress σ → Ending × Progress σ) (goal fact : Predicate) :
    Progress σ → Ending × Progress σ
  | ⟨env, copies, seen⟩ =>
    let mark := env.size
    match env.unifyPredicates goal fact with
    | (false, env) => (.exhausted, ⟨env, copies, seen⟩)
    | (true, env) => Progress.backTo mark (goOn ⟨env, copies, seen⟩)

/-- Goes on with the goals of a copy of this rule in the environments in which the goal is the
copy's head. -/
def useRule (limits : Limits) (expansions : Nat)
    (goOn : List Predicate → Progress σ → Ending × Progress σ) (goal : Predicate) (rule : Rule) :
    Progress σ → Ending × Progress σ
  | ⟨env, copies, seen⟩ =>
    let mark := env.size
    let copies := copies + 1
    match env.unifyPredicates goal (rule.copiedHead copies) with
    | (false, env) => (.exhausted, ⟨env, copies, seen⟩)
    | (true, env) =>
      match limits.reached expansions with
      | some limit => (.tooDeep limit, ⟨env, copies, seen⟩)
      | none => Progress.backTo mark (goOn (rule.copiedGoals copies) ⟨env, copies, seen⟩)

/-- Searches goals from left to right; `expand` searches the goals that a rule puts in front. -/
def searchGoals (database : Database) (limits : Limits) (visitor : Visitor σ) (expansions : Nat)
    (expand : List Predicate → Progress σ → Ending × Progress σ) :
    List Predicate → Progress σ → Ending × Progress σ
  | [], progress => progress.visit visitor
  | goal :: rest, progress =>
    let byFact := useFact (searchGoals database limits visitor expansions expand rest) goal
    match tryEach byFact (database.factsOf goal.signature) progress with
    | (.exhausted, next) =>
      let byRule := useRule limits expansions (fun goals => expand (goals ++ rest)) goal
      tryEach byRule (database.rulesOf goal.signature) next
    | halted => halted

/-- Searches goals on a branch that has made `expansions` rule expansions. -/
def search (database : Database) (limits : Limits) (visitor : Visitor σ) :
    Nat → Nat → List Predicate → Progress σ → Ending × Progress σ
  | 0, expansions, goals, progress =>
    searchGoals database limits visitor expansions
      (fun _ progress => (.unfinished, progress)) goals progress
  | fuel + 1, expansions, goals, progress =>
    searchGoals database limits visitor expansions
      (fun goals progress => search database limits visitor fuel (expansions + 1) goals progress)
      goals progress

end

/-- A database to search under limits, and the number of rule copies made in it so far. -/
structure Search where
  database : Database
  limits : Limits
  copies : Nat := 0

namespace Search

variable {σ : Type}

/-- Shows every environment that satisfies the goals to a visitor, in search order. -/
def each (s : Search) (visitor : Visitor σ) (goals : List Predicate) (env : Env) (seen : σ) :
    Ending × σ × Search :=
  match search s.database s.limits visitor s.limits.fuel 0 goals
      ⟨env, s.copies, seen⟩ with
  | (ending, ⟨_, copies, seen⟩) => (ending, seen, { s with copies })

/-- Collects environments, stopping once there are as many as wanted. -/
def collector (wanted : Option Nat) : Visitor (Array Env) := fun env seen =>
  let collected := seen.push env
  if wanted.any (· ≤ collected.size) then .done collected else .yield collected

/-- The environments up to the wanted number, and how the search ended. -/
def collect (s : Search) (wanted : Option Nat) (goals : List Predicate) (env : Env) :
    Ending × List Env × Search :=
  match s.each (collector wanted) goals env #[] with
  | (ending, seen, next) => (ending, seen.toList, next)

/-- All environments that satisfy the goals, in search order. -/
def all (s : Search) (goals : List Predicate) (env : Env) : Except Halt (List Env) × Search :=
  match s.collect none goals env with
  | (ending, envs, next) => (ending.answer envs, next)

/-- The first environment that satisfies the goals, if there is one. -/
def first? (s : Search) (goals : List Predicate) (env : Env) :
    Except Halt (Option Env) × Search :=
  match s.collect (some 1) goals env with
  | (ending, envs, next) => (ending.answer envs.head?, next)

end Search

end Backchain
