import Backchain.Proofs.Search.EarlyStop
import Backchain.Proofs.Session.ClauseByClause

/-!
A stored ground fact stays provable.

Sessions only ever store more, so a fact that is stored stays among the facts of its signature. Facts
are tried before rules, and a fact leaves no goals open. So whatever comes before it, the search for
the fact itself shows an environment before it makes any expansion, and asking for one environment it
stops there: no rule is tried, no limit is met and no fuel is used.
-/
set_option autoImplicit false

namespace Backchain

/-! ## Later sessions -/

namespace Session

/-- The sessions that clauses, programs and source texts lead to from a session, be they taken or
not. -/
inductive Later (session : Session) : Session → Prop where
  | now : Later session session
  | accept {later : Session} (before : Later session later) (clause : Clause) :
      Later session (later.accept clause).2
  | run {later : Session} (before : Later session later) (program : Program) :
      Later session (later.run program).2
  | runSource {later : Session} (before : Later session later) (source : String) :
      Later session (later.runSource source).2

theorem exists_storing_run (session : Session) (program : Program) :
    ∃ taken, (session.run program).2 = session.storing taken := by
  cases ran : session.run program with
  | mk result next =>
    cases result with
    | ok outcome => exact ⟨program, run_eq_ok ran⟩
    | error halt =>
      obtain ⟨before, -, -, -, -, same⟩ := run_eq_error_iff.mp ran
      exact ⟨before, same⟩

theorem Later.exists_storing {session later : Session} (after : session.Later later) :
    ∃ taken, later = session.storing taken := by
  induction after with
  | now => exact ⟨[], rfl⟩
  | @accept later _ clause ih =>
    obtain ⟨before, rfl⟩ := ih
    obtain ⟨taken, same⟩ := exists_storing_run (session.storing before) [clause]
    rw [run_singleton] at same
    exact ⟨before ++ taken, same.trans (storing_storing session before taken)⟩
  | run _ program ih =>
    obtain ⟨before, rfl⟩ := ih
    obtain ⟨taken, same⟩ := exists_storing_run (session.storing before) program
    exact ⟨before ++ taken, same.trans (storing_storing session before taken)⟩
  | runSource _ source ih =>
    obtain ⟨before, rfl⟩ := ih
    rw [Session.runSource]
    split
    · exact ⟨before, rfl⟩
    · rename_i program _
      obtain ⟨taken, same⟩ := exists_storing_run (session.storing before) program
      exact ⟨before ++ taken, same.trans (storing_storing session before taken)⟩

end Session

theorem Database.mem_facts_storeAll {database : Database} {fact : Predicate}
    (stored : fact ∈ database.facts) (program : Program) :
    fact ∈ (database.storeAll program).facts := by
  rw [← Array.mem_toList_iff, facts_storeAll, List.mem_append]
  exact .inl (Array.mem_toList_iff.mpr stored)

/-! ## The search for a stored fact -/

theorem Listing.found_andThen_ne_nil {first : Listing} (shown : first.found ≠ [])
    (next : Nat → Listing) : (first.andThen next).found ≠ [] := by
  unfold andThen
  split
  · exact List.append_ne_nil_of_left_ne_nil shown _
  · exact shown

/-- Candidates that are searched in full do not keep a later one from showing what it has. -/
theorem listEach_found_ne_nil {α : Type} {attempt : α → Nat → Listing} {candidates : List α}
    {candidate : α}
    (full : ∀ other ∈ candidates, ∀ copies, (attempt other copies).ending = .exhausted)
    (member : candidate ∈ candidates) (shown : ∀ copies, (attempt candidate copies).found ≠ [])
    (copies : Nat) : (listEach attempt candidates copies).found ≠ [] := by
  induction candidates generalizing copies with
  | nil => cases member
  | cons first candidates ih =>
    obtain ⟨fullFirst, fullOthers⟩ := List.forall_mem_cons.mp full
    rw [listEach]
    rcases List.mem_cons.mp member with rfl | later
    · exact Listing.found_andThen_ne_nil (shown copies) _
    · rw [Listing.andThen_of_exhausted (fullFirst copies)]
      exact List.append_ne_nil_of_right_ne_nil _ (ih fullOthers later _)

section

variable {database : Database} {fact : Predicate}

theorem exists_unified_self (plain : fact.IsPlain) :
    ∃ env, (∅ : Env).unifiedPredicates? fact fact = some env := by
  have solved : (∅ : Env).SolvedBy .var := fun _ _ bound =>
    absurd (Env.mem_toList_iff.mpr bound) List.not_mem_nil
  exact Env.unifiedPredicates_of_solution Env.acyclic_empty (Env.every_empty _) plain plain solved rfl

theorem listGoals_found_ne_nil (indexed : database.Indexed) (stored : fact ∈ database.facts)
    (plain : fact.IsPlain) (limits : Limits) (expansions : Nat)
    (expand : List Predicate → Env → Nat → Listing) (copies : Nat) :
    (listGoals database limits expansions expand [fact] ∅ copies).found ≠ [] := by
  have candidate : fact ∈ database.factsOf fact.signature := by
    rw [indexed.factsOf_eq_filter]
    exact List.mem_filter.mpr ⟨Array.mem_toList_iff.mpr stored, by simp⟩
  rw [listGoals]
  apply Listing.found_andThen_ne_nil
  refine listEach_found_ne_nil ?_ candidate ?_ copies
  · intro other _ copies
    unfold listFact
    cases (∅ : Env).unifiedPredicates? fact other <;> rfl
  · intro copies
    obtain ⟨env, unified⟩ := exists_unified_self plain
    simp [listFact, unified, listGoals]

theorem listing_envs_ne_nil (indexed : database.Indexed) (stored : fact ∈ database.facts)
    (plain : fact.IsPlain) (limits : Limits) (copies : Nat) :
    (Search.listing ⟨database, limits, copies⟩ [fact] ∅).envs ≠ [] := by
  rw [Listing.envs, Ne, List.map_eq_nil_iff, Search.listing]
  cases limits.fuel with
  | zero => exact listGoals_found_ne_nil indexed stored plain limits 0 _ copies
  | succ fuel => exact listGoals_found_ne_nil indexed stored plain limits 0 _ copies

end

namespace Session

theorem query_of_stored {session : Session} {fact : Predicate} (indexed : session.database.Indexed)
    (stored : fact ∈ session.database.facts) (ground : fact.IsGround) (plain : fact.IsPlain) :
    session.query fact.toTerm = .ok (.proven true) := by
  have groundTerm : fact.toTerm.isGround = true := by
    rw [Predicate.toTerm, Term.isGround, Term.areGround_eq_all, List.all_eq_true]
    exact ground
  have shown := listing_envs_ne_nil indexed stored plain session.limits 0
  have flat : fact.toTerm.goals = .ok [fact] := rfl
  rw [query_of_isGround flat groundTerm, Search.first?_eq]
  rw [← fresh] at shown
  cases envs : (session.fresh.listing [fact] ∅).envs with
  | nil => exact absurd envs shown
  | cons first others => rfl

theorem accept_ground_fact (session : Session) {fact : Predicate} (ground : fact.IsGround) :
    session.accept (.fact fact) = (.ok none, session.storing [.fact fact]) := by
  have accepted : checkNames fact.args = .ok () :=
    checkNames_eq_ok_iff.mpr ground.isUnmarked
  rw [accept, storeFact, accepted]
  rfl

/-- A ground fact without conjunctions is stored when it is taken, and once it is stored, in whatever
way, it is proven in every later session, under any limits and among any other clauses. -/
theorem stored_fact_stays_proven {session : Session} {fact : Predicate}
    (reachable : session.Reachable) (ground : fact.IsGround) (plain : fact.IsPlain) :
    ((session.accept (.fact fact)).1 = .ok none ∧
      fact ∈ (session.accept (.fact fact)).2.database.facts) ∧
    (fact ∈ session.database.facts → ∀ later, session.Later later →
      later.query fact.toTerm = .ok (.proven true)) := by
  refine ⟨?taken, ?proven⟩
  case taken =>
    rw [session.accept_ground_fact ground]
    refine ⟨rfl, ?_⟩
    rw [← Array.mem_toList_iff, storing, Database.facts_storeAll]
    simp [Clause.fact?]
  case proven =>
    intro stored later after
    obtain ⟨taken, rfl⟩ := after.exists_storing
    exact query_of_stored (reachable.accepted.built.storeAll taken).indexed
      (Database.mem_facts_storeAll stored taken) ground plain

namespace Bridges

def bridge (first second : Term) : Predicate :=
  ⟨"bridge", [first, second]⟩

/-- A fact behind a more general one, with a rule that leads back to itself, and no expansions. -/
def session : Session :=
  ({ limits := .ofDepth 0 : Session }.run
    [.rule (bridge (.var "X") (.var "Y")) (bridge (.var "Y") (.var "X")).toTerm,
      .fact (bridge (.var "X") (.atom "b")), .fact (bridge (.atom "a") (.atom "b"))]).2

/-- A program that fails at its query, and stores one more rule before. -/
def program : Program :=
  [.rule (bridge (.var "X") (.var "Z"))
      (.conj (bridge (.var "X") (.var "Y")).toTerm (bridge (.var "Y") (.var "Z")).toTerm),
    .query (bridge (.atom "b") (.atom "a")).toTerm]

end Bridges

open Bridges in
theorem stored_fact_stays_proven_bridges :
    let fact := bridge (.atom "a") (.atom "b")
    let later := (Bridges.session.run program).2
    fact ∈ Bridges.session.database.facts ∧ Bridges.session.Later later ∧
      (Bridges.session.run program).1 = .error (.error (.depthLimitExceeded 0)) ∧
      later.query fact.toTerm = .ok (.proven true) := by
  intro fact later
  have reachable : Bridges.session.Reachable := .run (.start _) _
  have stored : fact ∈ Bridges.session.database.facts := Array.mem_toList_iff.mp (by decide)
  have after : Bridges.session.Later later := .run .now program
  have ground : fact.IsGround := by decide
  have plain : fact.IsPlain := by decide
  have proven := (stored_fact_stays_proven reachable ground plain).2
  exact ⟨stored, after, by rfl, proven stored later after⟩

end Session

end Backchain
