import Backchain.Proofs.Search.Agenda
import Backchain.Proofs.Search.Refinement
import Backchain.Proofs.Search.Skeleton

/-!
What a limit on the expansions does to a search.

The machine has no limits, and it can go one way only. A search comes to its full end if the
machine never goes beyond what its limits allow; then the machine halts with the same environments.
Otherwise the search is cut off where the machine first goes beyond that. Two searches with
different limits are both compared with the machine, and so with each other.
-/
set_option autoImplicit false

namespace Backchain

open StateTransition (Reaches)

variable {database : Database} {goals : List Predicate} {env : Env} {copies : Nat}

/-- The machine comes to a branch with more expansions than this. -/
def Agenda.Exceeds (database : Database) (depth : Nat) (start : Agenda) : Prop :=
  ∃ agenda, Reaches (Agenda.next? database) start agenda ∧ depth < agenda.expansions

namespace Search

section

variable {s : Search}

theorem walks_of_exhausted (full : (s.listing goals env).ending = .exhausted) :
    (Agenda.start goals env s.copies).Walks s.database s.limits.most
      ⟨[], (s.listing goals env).copies, (s.listing goals env).envs⟩ := by
  have performs := performs_listing s.database (Nat.zero_le _) s.limits.bounds_most goals env
    s.copies
  exact performs.finishes [] [] full

theorem halts_of_exhausted (full : (s.listing goals env).ending = .exhausted) :
    ⟨[], (s.listing goals env).copies, (s.listing goals env).envs⟩ ∈
      StateTransition.eval (Agenda.next? s.database) (Agenda.start goals env s.copies) :=
  StateTransition.mem_eval.mpr ⟨(walks_of_exhausted full).reaches, Agenda.next?_of_done rfl⟩

theorem exists_deeper (cut : (s.listing goals env).ending ≠ .exhausted) :
    ∃ agenda, (Agenda.start goals env s.copies).Walks s.database s.limits.most agenda ∧
      agenda.found = (s.listing goals env).envs ∧ s.limits.most < agenda.expansions := by
  have performs := performs_listing s.database (Nat.zero_le _) s.limits.bounds_most goals env
    s.copies
  exact performs.exceeds [] [] cut

theorem exhausted_iff : (s.listing goals env).ending = .exhausted ↔
    ¬ (Agenda.start goals env s.copies).Exceeds s.database s.limits.most := by
  constructor
  · rintro full ⟨agenda, reaches, deeper⟩
    exact (walks_of_exhausted full).not_deeper_of_done rfl reaches deeper
  · intro within
    by_contra cut
    obtain ⟨agenda, walks, -, deeper⟩ := exists_deeper cut
    exact within ⟨agenda, walks.reaches, deeper⟩

theorem all_eq_ok_iff {envs : List Env} {next : Search} :
    s.all goals env = (.ok envs, next) ↔
      (s.listing goals env).ending = .exhausted ∧ (s.listing goals env).envs = envs ∧
        { s with copies := (s.listing goals env).copies } = next := by
  rw [← Prod.mk.eta (p := s.all goals env), Prod.mk.injEq, all_eq, all_next]
  constructor
  · rintro ⟨finished, same⟩
    have full := exhausted_of_answer finished
    exact ⟨full.1, full.2, same⟩
  · rintro ⟨full, rfl, same⟩
    exact ⟨by rw [full, Ending.answer], same⟩

theorem halts_of_answered {envs : List Env} {next : Search}
    (answered : s.all goals env = (.ok envs, next)) :
    ⟨[], next.copies, envs⟩ ∈
      StateTransition.eval (Agenda.next? s.database) (Agenda.start goals env s.copies) := by
  obtain ⟨full, rfl, rfl⟩ := all_eq_ok_iff.mp answered
  exact halts_of_exhausted full

/-- The machine finds all that the search lists. -/
theorem exists_reaches_found (s : Search) (goals : List Predicate) (env : Env) :
    ∃ agenda, Reaches (Agenda.next? s.database) (Agenda.start goals env s.copies) agenda ∧
      agenda.found = (s.listing goals env).envs := by
  by_cases full : (s.listing goals env).ending = .exhausted
  · exact ⟨_, (walks_of_exhausted full).reaches, rfl⟩
  · obtain ⟨agenda, walks, same, -⟩ := exists_deeper full
    exact ⟨agenda, walks.reaches, same⟩

theorem exists_reaches_delivered {σ : Type} (s : Search) (visitor : Visitor σ)
    (goals : List Predicate) (env : Env) (seen : σ) :
    ∃ agenda, Reaches (Agenda.next? s.database) (Agenda.start goals env s.copies) agenda ∧
      s.delivered visitor goals env seen <+: agenda.found := by
  obtain ⟨agenda, reaches, found⟩ := exists_reaches_found s goals env
  refine ⟨agenda, reaches, ?_⟩
  rw [found]
  exact s.delivered_prefix visitor goals env seen

end

section

variable {narrow wide : Limits}

/-- With more room, a search that came to its full end does nothing else. -/
theorem listing_of_wider (wider : narrow.most ≤ wide.most)
    (full : (Search.listing ⟨database, narrow, copies⟩ goals env).ending = .exhausted) :
    (Search.listing ⟨database, wide, copies⟩ goals env).ending = .exhausted ∧
      (Search.listing ⟨database, wide, copies⟩ goals env).envs =
        (Search.listing ⟨database, narrow, copies⟩ goals env).envs ∧
      (Search.listing ⟨database, wide, copies⟩ goals env).copies =
        (Search.listing ⟨database, narrow, copies⟩ goals env).copies := by
  have fullWide : (Search.listing ⟨database, wide, copies⟩ goals env).ending = .exhausted := by
    rw [exhausted_iff] at full ⊢
    rintro ⟨agenda, reaches, deeper⟩
    exact full ⟨agenda, reaches, Nat.lt_of_le_of_lt wider deeper⟩
  have halts := (walks_of_exhausted full).reaches
  have haltsWide := (walks_of_exhausted fullWide).reaches
  have same := (StateTransition.reaches_total halts haltsWide).elim
    (Agenda.eq_of_reaches_done rfl) fun back => (Agenda.eq_of_reaches_done rfl back).symm
  rw [Agenda.mk.injEq] at same
  exact ⟨fullWide, same.2.2, same.2.1⟩

theorem all_of_wider {envs : List Env} {next : Search} (wider : narrow.most ≤ wide.most)
    (answered : Search.all ⟨database, narrow, copies⟩ goals env = (.ok envs, next)) :
    Search.all ⟨database, wide, copies⟩ goals env = (.ok envs, ⟨database, wide, next.copies⟩) := by
  obtain ⟨full, sameEnvs, sameNext⟩ := all_eq_ok_iff.mp answered
  obtain ⟨fullWide, sameWide, sameCopies⟩ := listing_of_wider wider full
  refine all_eq_ok_iff.mpr ⟨fullWide, sameWide.trans sameEnvs, ?_⟩
  rw [← sameNext]
  exact congrArg (Search.mk database wide) sameCopies

/-- With more room, a search finds the same first. -/
theorem envs_prefix_of_wider (wider : narrow.most ≤ wide.most) :
    (Search.listing ⟨database, narrow, copies⟩ goals env).envs <+:
      (Search.listing ⟨database, wide, copies⟩ goals env).envs := by
  by_cases full : (Search.listing ⟨database, narrow, copies⟩ goals env).ending = .exhausted
  · rw [(listing_of_wider wider full).2.1]
  obtain ⟨agenda, walks, found, deeper⟩ := exists_deeper full
  rw [← found]
  by_cases fullWide : (Search.listing ⟨database, wide, copies⟩ goals env).ending = .exhausted
  · have halts := (walks_of_exhausted fullWide).reaches
    rcases StateTransition.reaches_total walks.reaches halts with later | back
    · exact Agenda.found_prefix_of_reaches later
    · have same := Agenda.eq_of_reaches_done rfl back
      rw [same, Agenda.expansions] at deeper
      exact absurd deeper (Nat.not_lt_zero _)
  · obtain ⟨other, walksWide, foundWide, deeperWide⟩ := exists_deeper fullWide
    rw [← foundWide]
    -- Both come to a branch beyond the narrow limits; the narrow search does so first.
    exact Agenda.found_prefix_of_reaches
      (walks.reaches_of_deeper walksWide.reaches (Nat.lt_of_le_of_lt wider deeperWide))

theorem delivered_prefix_of_wider {σ : Type} (wider : narrow.most ≤ wide.most)
    (visitor : Visitor σ) (seen : σ) :
    Search.delivered ⟨database, narrow, copies⟩ visitor goals env seen <+:
      Search.delivered ⟨database, wide, copies⟩ visitor goals env seen := by
  rw [delivered_eq, delivered_eq]
  exact visitor.viewed_mono (envs_prefix_of_wider wider) seen

end

end Search

theorem Limits.le_most {limits : Limits} {depth : Nat} :
    depth ≤ limits.most ↔ (∀ limit ∈ limits.depth, depth ≤ limit) ∧ depth ≤ limits.fuel := by
  rw [most]
  cases limits.depth with
  | none => simp
  | some limit => simp [and_comm]

theorem Limits.most_of_enough {limit fuel : Nat} (enough : limit ≤ fuel) :
    Limits.most ⟨some limit, fuel⟩ = limit :=
  Nat.min_eq_right enough

/-- With enough fuel, a search is cut off at its limit only. -/
theorem ending_of_enough {limit fuel : Nat} (enough : limit ≤ fuel) :
    (Search.listing ⟨database, ⟨some limit, fuel⟩, copies⟩ goals env).ending = .exhausted ∨
      (Search.listing ⟨database, ⟨some limit, fuel⟩, copies⟩ goals env).ending =
        .tooDeep limit := by
  apply listing_ending fun ending => ending = .exhausted ∨ ending = .tooDeep limit
  · exact .inl rfl
  · intro other same
    rw [Option.mem_some.mp same]
    exact .inr rfl
  · intro short
    have less : 0 + fuel < limit := short limit rfl
    omega

theorem all_of_enough (database : Database) (goals : List Predicate) (env : Env) (copies : Nat)
    {limit fuel : Nat} (enough : limit ≤ fuel) :
    let start := Agenda.start goals env copies
    let answer := (Search.all ⟨database, ⟨some limit, fuel⟩, copies⟩ goals env).1
    (¬ start.Exceeds database limit ∧ ∃ envs, answer = .ok envs) ∨
      (start.Exceeds database limit ∧ answer = .error (.error (.depthLimitExceeded limit))) := by
  intro start answer
  have exhausted_iff : (Search.listing ⟨database, ⟨some limit, fuel⟩, copies⟩ goals env).ending =
      .exhausted ↔ ¬ start.Exceeds database limit := by
    rw [Search.exhausted_iff, Limits.most_of_enough enough]
  have answered : answer = _ := Search.all_eq ⟨database, ⟨some limit, fuel⟩, copies⟩ goals env
  rcases ending_of_enough enough with full | cut
  · rw [full] at answered
    exact .inl ⟨exhausted_iff.mp full, _, answered⟩
  · rw [cut] at answered exhausted_iff
    exact .inr ⟨by simpa using exhausted_iff, answered⟩

/-- A machine that does not halt goes beyond every depth. -/
theorem halts_or_exceeds (database : Database) (goals : List Predicate) (env : Env)
    (copies depth : Nat) :
    (∃ number envs, ⟨[], number, envs⟩ ∈
        StateTransition.eval (Agenda.next? database) (Agenda.start goals env copies)) ∨
      (Agenda.start goals env copies).Exceeds database depth := by
  rcases all_of_enough database goals env copies (Nat.le_refl depth) with answered | failed
  · obtain ⟨-, envs, answered⟩ := answered
    have halts := Search.halts_of_answered (Prod.ext answered rfl)
    exact .inl ⟨_, envs, halts⟩
  · exact .inr failed.1

theorem ne_tooDeep_of_unlimited {σ : Type} (visitor : Visitor σ) (seen : σ) (fuel limit : Nat) :
    (Search.each ⟨database, ⟨none, fuel⟩, copies⟩ visitor goals env seen).1 ≠ .tooDeep limit := by
  have listed : (Search.listing ⟨database, ⟨none, fuel⟩, copies⟩ goals env).ending ≠
      .tooDeep limit := by
    apply listing_ending (· ≠ .tooDeep limit) <;> simp
  rw [Search.each_eq]
  rcases Listing.showFound_ending visitor _ _ _ seen with same | stopped
  · exact fun cut => listed (same.symm.trans cut)
  · exact fun cut => nomatch stopped.symm.trans cut

/-- The machine halts if and only if some fuel is enough for the search without a limit, and both
find the same. -/
theorem halts_iff_exists_fuel {number : Nat} {envs : List Env} :
    ⟨[], number, envs⟩ ∈
        StateTransition.eval (Agenda.next? database) (Agenda.start goals env copies) ↔
      ∃ fuel, Search.all ⟨database, ⟨none, fuel⟩, copies⟩ goals env =
        (.ok envs, ⟨database, ⟨none, fuel⟩, number⟩) := by
  constructor
  · intro halts
    obtain ⟨fuel, walks⟩ := Agenda.exists_walks (StateTransition.mem_eval.mp halts).1
    have full : (Search.listing ⟨database, ⟨none, fuel⟩, copies⟩ goals env).ending =
        .exhausted := by
      rw [Search.exhausted_iff]
      rintro ⟨agenda, reaches, deeper⟩
      exact walks.not_deeper_of_done rfl reaches deeper
    have same := Part.mem_unique (Search.halts_of_exhausted full) halts
    rw [Agenda.mk.injEq] at same
    refine ⟨fuel, Search.all_eq_ok_iff.mpr ⟨full, same.2.2, ?_⟩⟩
    rw [same.2.1]
  · rintro ⟨fuel, answered⟩
    have halts := Search.halts_of_answered answered
    exact halts

/-- A search with a limit and enough fuel fails if and only if the machine, which has no limit, comes
to a branch with more expansions than the limit, and has an answer otherwise. After an answer, the
machine halts with the same, and so does the search with any wider limit or none. Before a failure,
visitors are shown the first of what the machine finds, and of what they are shown with any wider
limit or none. No search without a limit fails so. -/
theorem depth_limit_law (database : Database) (goals : List Predicate) (env : Env)
    (copies limit fuel : Nat) (enough : limit ≤ fuel) :
    let start := Agenda.start goals env copies
    let limited : Search := ⟨database, ⟨some limit, fuel⟩, copies⟩
    ((limited.all goals env).1 = .error (.error (.depthLimitExceeded limit)) ↔
        start.Exceeds database limit) ∧
      ((∃ envs, (limited.all goals env).1 = .ok envs) ↔ ¬ start.Exceeds database limit) ∧
      (∀ envs next, limited.all goals env = (.ok envs, next) →
        ⟨[], next.copies, envs⟩ ∈ StateTransition.eval (Agenda.next? database) start ∧
        ∀ wider : Limits, (∀ larger ∈ wider.depth, limit ≤ larger) → limit ≤ wider.fuel →
          Search.all ⟨database, wider, copies⟩ goals env =
            (.ok envs, ⟨database, wider, next.copies⟩)) ∧
      (∀ (σ : Type) (visitor : Visitor σ) (seen : σ),
        (∃ agenda, Reaches (Agenda.next? database) start agenda ∧
          limited.delivered visitor goals env seen <+: agenda.found) ∧
        ∀ wider : Limits, (∀ larger ∈ wider.depth, limit ≤ larger) → limit ≤ wider.fuel →
          limited.delivered visitor goals env seen <+:
            Search.delivered ⟨database, wider, copies⟩ visitor goals env seen) ∧
      ∀ (σ : Type) (visitor : Visitor σ) (seen : σ) (fuel other : Nat),
        (Search.each ⟨database, ⟨none, fuel⟩, copies⟩ visitor goals env seen).1 ≠
          .tooDeep other := by
  intro start limited
  have answer := all_of_enough database goals env copies enough
  have room : ∀ wider : Limits, (∀ larger ∈ wider.depth, limit ≤ larger) → limit ≤ wider.fuel →
      Limits.most ⟨some limit, fuel⟩ ≤ wider.most := by
    intro wider larger enoughWider
    rw [Limits.most_of_enough enough]
    exact Limits.le_most.mpr ⟨larger, enoughWider⟩
  refine ⟨?fails, ?answers, ?wider, ?first, ?unlimited⟩
  case fails =>
    rcases answer with ⟨within, envs, answered⟩ | ⟨deeper, failed⟩
    · refine iff_of_false ?_ within
      rw [answered]
      simp
    · exact iff_of_true failed deeper
  case answers =>
    rcases answer with ⟨within, answered⟩ | ⟨deeper, failed⟩
    · exact iff_of_true answered within
    · refine iff_of_false ?_ (not_not_intro deeper)
      rw [failed]
      simp
  case wider =>
    intro envs next answered
    constructor
    · have halts := Search.halts_of_answered answered
      exact halts
    · intro wider larger enoughWider
      exact Search.all_of_wider (room wider larger enoughWider) answered
  case first =>
    intro σ visitor seen
    constructor
    · exact Search.exists_reaches_delivered limited visitor goals env seen
    · intro wider larger enoughWider
      exact Search.delivered_prefix_of_wider (room wider larger enoughWider) visitor seen
  case unlimited =>
    intro σ visitor seen fuel other
    exact ne_tooDeep_of_unlimited visitor seen fuel other

/-- Every way from `a` is tried with three copies of rules, the last of them without success. -/
theorem depth_limit_law_streets :
    let start := Agenda.start [Streets.wayFromA] Streets.named 0
    start.Exceeds Streets.database 2 ∧ ¬ start.Exceeds Streets.database 3 := by
  have two := depth_limit_law Streets.database [Streets.wayFromA] Streets.named 0 2 2 (by decide)
  have three := depth_limit_law Streets.database [Streets.wayFromA] Streets.named 0 3 4 (by decide)
  refine ⟨two.1.mp rfl, three.2.1.mp ?_⟩
  have counted : (Search.all ⟨Streets.database, ⟨some 3, 4⟩, 0⟩ [Streets.wayFromA]
      Streets.named).1.map List.length = .ok 2 := by rfl
  cases finished : (Search.all ⟨Streets.database, ⟨some 3, 4⟩, 0⟩ [Streets.wayFromA]
      Streets.named).1 with
  | ok envs => exact ⟨envs, rfl⟩
  | error halt =>
    rw [finished] at counted
    cases counted

end Backchain
